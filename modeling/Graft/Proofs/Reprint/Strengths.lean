import Graft.Proofs.Reprint.Plain

/-!
# The strengths of the printer and of the parser

The printer compares the strength of an operand with the least one that its place asks for, and the
parser compares the strengths of operators.  The two scales differ; here they are matched: an
operand that is printed without parentheses is strong enough to be read in its place.
-/

namespace Graft

open Grammar

/-- The strength at which the parser reads a node: it takes operators of at most that strength to
be part of what stands around the node. -/
def Node.level (n : Node) : Nat :=
  match n.kind with
  | .binaryExpression | .logicalExpression =>
    (binaryStrength? ((n.text? .operator).getD "")).getD unaryStrength
  | .conditionalExpression | .assignmentExpression => conditionalStrength
  | _ => unaryStrength

/-- The strength with which the last operand of a node is read. -/
def Node.reach (n : Node) : Nat :=
  match n.kind with
  | .binaryExpression | .logicalExpression =>
    ((binaryStrength? ((n.text? .operator).getD "")).map
      (rightStrength ((n.text? .operator).getD ""))).getD unaryStrength
  | .conditionalExpression | .assignmentExpression => conditionalStrength
  | _ => unaryStrength

theorem Node.level_le_reach (n : Node) : n.level ≤ n.reach := by
  have hright : ∀ operator strength, strength ≤ rightStrength operator strength := by
    intro operator strength
    rw [rightStrength]
    split <;> omega
  unfold level reach
  cases n.kind <;> simp only [Nat.le_refl]
  all_goals cases binaryStrength? ((n.text? .operator).getD "") <;> simp [hright]

/-- What can be assigned to binds as tight as a member. -/
theorem Node.member_le_strength_of_isTarget {n : Node} (htarget : n.isTarget = true) :
    Strength.member ≤ Strength.of n := by
  simp only [Node.isTarget, Bool.or_eq_true, decide_eq_true_eq] at htarget
  rcases htarget with hkind | hkind
  · simp only [Strength.of, hkind]
    decide
  · simp [Strength.of, hkind]

/-- The parser strength of every binary operator. -/
def strengthOf (operator : String) : Nat := (binaryStrength? operator).getD 0

theorem binaryStrength?_eq :
    ∀ operator ∈ binaryOperators,
      binaryStrength? operator = some (strengthOf operator) := by
  decide +kernel

variable {operator : String}

/-- What the printer asks of an operand that is a binary operation itself. -/
def nestedLeast (operator inner : String) (least : Nat) : Nat :=
  Parts.operandStrength operator (.mk (binaryKind inner) {} [(.operator, .text inner)]) least

theorem nested_strengths :
    ∀ operator ∈ binaryOperators, ∀ inner ∈ binaryOperators,
      (nestedLeast operator inner
          (if operator == "**" then Strength.postfixed else Strength.binary operator) ≤
            Strength.binary inner →
        strengthOf operator ≤ strengthOf inner ∧
          strengthOf operator < rightStrength inner (strengthOf inner)) ∧
      (nestedLeast operator inner
          (if operator == "**" then Strength.binary operator else Strength.binary operator + 1) ≤
            Strength.binary inner →
        rightStrength operator (strengthOf operator) ≤ strengthOf inner) := by
  decide +kernel

theorem binary_bounds :
    ∀ operator ∈ binaryOperators,
      Strength.logicalOr ≤ Strength.binary operator ∧ strengthOf operator < unaryStrength ∧
        rightStrength operator (strengthOf operator) ≤ unaryStrength ∧
          conditionalStrength ≤ strengthOf operator ∧
            conditionalStrength < rightStrength operator (strengthOf operator) ∧
              Strength.binary operator < Strength.unary := by
  decide +kernel

theorem lt_operandStrength
    {n : Node} {bound least : Nat}
    (hleast : bound < least) (hprimary : bound < Strength.primary) :
    bound < Parts.operandStrength operator n least := by
  unfold Parts.operandStrength
  dsimp only
  split_ifs <;> assumption

theorem Node.assignment_lt_leftLeast (hoperator : operator ∈ binaryOperators) (n : Node) :
    Strength.assignment < Node.leftLeast operator n := by
  have hor := (binary_bounds operator hoperator).1
  refine lt_operandStrength ?_ (by decide)
  split
  · decide
  · exact Nat.lt_of_lt_of_le (by decide) hor

theorem Node.leftLeast_pos (hoperator : operator ∈ binaryOperators) (n : Node) :
    0 < Node.leftLeast operator n :=
  Nat.lt_of_le_of_lt (Nat.zero_le _) (Node.assignment_lt_leftLeast hoperator n)

theorem Node.rightLeast_pos (hoperator : operator ∈ binaryOperators) (n : Node) :
    0 < Node.rightLeast operator n := by
  have hor := (binary_bounds operator hoperator).1
  have hpositive : 0 < Strength.logicalOr := by decide
  refine lt_operandStrength ?_ (by decide)
  split <;> omega

/-- What the strengths of a plain operand can be. -/
inductive Node.Strengths (n : Node) : Prop
  | binary (inner : String) (hinner : inner ∈ binaryOperators)
      (hleast : ∀ operator least, Parts.operandStrength operator n least =
        nestedLeast operator inner least)
      (hof : Strength.of n = Strength.binary inner) (hlevel : n.level = strengthOf inner)
      (hreach : n.reach = rightStrength inner (strengthOf inner))
  | tight (hleast : ∀ operator least, Parts.operandStrength operator n least = least)
      (hof : Strength.unary ≤ Strength.of n) (hlevel : n.level = unaryStrength)
      (hreach : n.reach = unaryStrength)
  | loose (hleast : ∀ operator least, Parts.operandStrength operator n least = least)
      (hof : Strength.of n < Strength.logicalOr) (hlevel : conditionalStrength ≤ n.level)

theorem Node.Plain.strengths {n : Node} (hn : n.Plain .operand) : n.Strengths := by
  cases hn with
  | @binary kind span inner left right hinner hkind hleft hright =>
      have hstrength := binaryStrength?_eq inner hinner
      subst hkind
      unfold binaryKind
      split
      all_goals
        refine .binary inner hinner (fun operator least => ?_) rfl ?_ ?_
        · simp_all [nestedLeast, binaryKind, Parts.operandStrength, Node.text?, Node.scalar?,
            Node.slot?, Slot.text]
        · simp [Node.level, Node.text?, Node.scalar?, Node.slot?, Slot.text, hstrength]
        · simp [Node.reach, Node.text?, Node.scalar?, Node.slot?, Slot.text, hstrength]
  | conditional =>
      exact .loose (fun _ _ => rfl) (by decide : Strength.conditional < _) (Nat.le_refl _)
  | assignment =>
      exact .loose (fun _ _ => rfl) (by decide : Strength.assignment < _) (Nat.le_refl _)
  | sequence =>
      exact .loose (fun _ _ => rfl) (by decide : Strength.sequence < _)
        (by decide : conditionalStrength ≤ unaryStrength)
  | @update span operator argument prefixed =>
      cases prefixed
      · exact .tight (fun _ _ => rfl) (by decide : _ ≤ Strength.postfixed) rfl rfl
      · exact .tight (fun _ _ => rfl) (Nat.le_refl Strength.unary) rfl rfl
  | unary => exact .tight (fun _ _ => rfl) (Nat.le_refl Strength.unary) rfl rfl
  | call => exact .tight (fun _ _ => rfl) (by decide : _ ≤ Strength.call) rfl rfl
  | new => exact .tight (fun _ _ => rfl) (by decide : _ ≤ Strength.construct) rfl rfl
  | member => exact .tight (fun _ _ => rfl) (by decide : _ ≤ Strength.member) rfl rfl
  | element => exact .tight (fun _ _ => rfl) (by decide : _ ≤ Strength.member) rfl rfl
  | _ => exact .tight (fun _ _ => rfl) (by decide : _ ≤ Strength.primary) rfl rfl

/-- An operand that is printed bare in front of an operator is read up to that operator. -/
theorem Node.Strengths.left
    {n : Node}
    (hn : n.Strengths)
    (hoperator : operator ∈ binaryOperators)
    (hleast : Node.leftLeast operator n ≤ Strength.of n) :
    strengthOf operator ≤ n.level ∧ strengthOf operator < n.reach := by
  obtain ⟨hor, hunary, -⟩ := binary_bounds operator hoperator
  rw [Node.leftLeast] at hleast
  cases hn with
  | binary inner hinner heq hof hlevel hreach =>
      rw [heq, hof] at hleast
      rw [hlevel, hreach]
      exact (nested_strengths operator hoperator inner hinner).1 hleast
  | tight heq hof hlevel hreach =>
      rw [hlevel, hreach]
      exact ⟨Nat.le_of_lt hunary, hunary⟩
  | loose heq hof =>
      rw [heq] at hleast
      split at hleast
      · have hpostfixed : Strength.logicalOr ≤ Strength.postfixed := by decide
        omega
      · omega

/-- An operand that is printed bare behind an operator is read as its right operand. -/
theorem Node.Strengths.right
    {n : Node}
    (hn : n.Strengths)
    (hoperator : operator ∈ binaryOperators)
    (hleast : Node.rightLeast operator n ≤ Strength.of n) :
    rightStrength operator (strengthOf operator) ≤ n.level := by
  obtain ⟨hor, -, hunary, -⟩ := binary_bounds operator hoperator
  rw [Node.rightLeast] at hleast
  cases hn with
  | binary inner hinner heq hof hlevel =>
      rw [heq, hof] at hleast
      rw [hlevel]
      exact (nested_strengths operator hoperator inner hinner).2 hleast
  | tight heq hof hlevel =>
      rw [hlevel]
      exact hunary
  | loose heq hof =>
      rw [heq] at hleast
      split at hleast <;> omega

theorem Node.Strengths.of_unary
    {n : Node}
    (hn : n.Strengths) (hof : Strength.unary ≤ Strength.of n) :
    n.level = unaryStrength ∧ n.reach = unaryStrength := by
  cases hn with
  | binary inner hinner _ heq =>
      have hlt := (binary_bounds inner hinner).2.2.2.2.2
      omega
  | tight _ _ hlevel hreach => exact ⟨hlevel, hreach⟩
  | loose _ hlt =>
      have hle : Strength.logicalOr ≤ Strength.unary := by decide
      omega

theorem Node.Strengths.of_test
    {n : Node}
    (hn : n.Strengths) (hof : Strength.logicalOr ≤ Strength.of n) :
    conditionalStrength ≤ n.level ∧ conditionalStrength < n.reach := by
  cases hn with
  | binary inner hinner _ _ hlevel hreach =>
      obtain ⟨-, -, -, hle, hlt, -⟩ := binary_bounds inner hinner
      rw [hlevel, hreach]
      exact ⟨hle, hlt⟩
  | tight _ _ hlevel hreach =>
      rw [hlevel, hreach]
      decide
  | loose _ hlt => omega

theorem Node.Strengths.conditionalStrength_le {n : Node} (hn : n.Strengths) :
    conditionalStrength ≤ n.level := by
  cases hn with
  | binary inner hinner _ _ hlevel _ =>
      rw [hlevel]
      exact (binary_bounds inner hinner).2.2.2.1
  | tight _ _ hlevel _ =>
      rw [hlevel]
      decide
  | loose _ _ hlevel => exact hlevel

end Graft
