import Graft.Proofs.Ecma.Grammar
import Graft.Proofs.Reprint.Strengths

/-!
# The strengths of the printer and the nonterminals of the grammar

An operand that is printed without parentheses is one whose nonterminal its place takes.  That is
where the exceptions of the printer come from: what it asks of the operands of `??` and of the base
of a power is what the grammar asks of them.
-/

namespace Graft

open Grammar

/-- Trees of names of variables, constants, whole numbers, members, calls, operators, assignments,
conditionals and sequences, nested in any way. -/
inductive Node.Formula : Node → Prop
  | variableName {span : Span} {name : String} (hname : isVariable name = true)
      (hword : name ∉ Ecma.reserved) : Formula (.identifier name span)
  | integer {span : Span} {raw : String} (hne : raw.toList ≠ [])
      (hraw : raw.toList.all Char.isDigit = true) :
      Formula (.mk .literal span [(.value, .scalar (.num (Numeral.value? raw) raw))])
  | constant {span : Span} {word : String} {value : Scalar} (hword : (word, value) ∈ constants) :
      Formula (.mk .literal span [(.value, .scalar value)])
  | this {span : Span} : Formula (.mk .thisExpression span [])
  | member {span span' : Span} {object : Node} {name : String} (hobject : Formula object)
      (hname : isNameText name.toList = true) :
      Formula (.mk .memberExpression span [(.object, .node object),
        (.property, .node (.identifier name span')), (.computed, .flag false),
          (.optional, .flag false)])
  | element {span : Span} {object index : Node} (hobject : Formula object)
      (hindex : Formula index) :
      Formula (.mk .memberExpression span [(.object, .node object), (.property, .node index),
        (.computed, .flag true), (.optional, .flag false)])
  | call {span : Span} {callee : Node} {args : List Node} (hcallee : Formula callee)
      (hargs : ∀ n ∈ args, Formula n) :
      Formula (.mk .callExpression span [(.callee, .node callee), (.arguments, .list args),
        (.optional, .flag false)])
  | new {span : Span} {callee : Node} {args : List Node} (hcallee : Formula callee)
      (hargs : ∀ n ∈ args, Formula n) :
      Formula (.mk .newExpression span [(.callee, .node callee), (.arguments, .list args)])
  | unary {span : Span} {operator : String} {argument : Node}
      (hoperator : operator ∈ unaryOperators) (hargument : Formula argument) :
      Formula (.mk .unaryExpression span [(.operator, .text operator),
        (.argument, .node argument)])
  | update {span : Span} {operator : String} {target : Node} {prefixed : Bool}
      (hoperator : operator ∈ ["++", "--"]) (hargument : Formula target)
      (htarget : target.isTarget = true) :
      Formula (.mk .updateExpression span [(.operator, .text operator),
        (.argument, .node target), (.prefixed, .flag prefixed)])
  | binary {kind : Kind} {span : Span} {operator : String} {left right : Node}
      (hoperator : operator ∈ binaryOperators) (hkind : kind = binaryKind operator)
      (hleft : Formula left) (hright : Formula right) :
      Formula (.mk kind span [(.operator, .text operator), (.left, .node left),
        (.right, .node right)])
  | assignment {span : Span} {operator : String} {target value : Node}
      (hoperator : operator ∈ assignmentMarks) (hleft : Formula target)
      (htarget : target.isTarget = true) (hvalue : Formula value) :
      Formula (.mk .assignmentExpression span [(.operator, .text operator),
        (.left, .node target), (.right, .node value)])
  | conditional {span : Span} {test consequent alternate : Node} (htest : Formula test)
      (hconsequent : Formula consequent) (halternate : Formula alternate) :
      Formula (.mk .conditionalExpression span [(.test, .node test),
        (.consequent, .node consequent), (.alternate, .node alternate)])
  | sequence {span : Span} {ns : List Node} (hlength : 2 ≤ ns.length)
      (hns : ∀ n ∈ ns, Formula n) :
      Formula (.mk .sequenceExpression span [(.expressions, .list ns)])

theorem Node.Formula.plain {e : Node} (he : e.Formula) :
    e.Plain .operand := by
  induction he with
  | variableName hname => exact .variableName hname
  | integer hne hraw => exact .integer hne hraw
  | constant hword => exact .constant hword
  | this => exact .this
  | member _ hname ih => exact .member ih hname
  | element _ _ ih ih' => exact .element ih ih'
  | call _ _ ih ih' => exact .call ih fun n hn => .value (ih' n hn)
  | new _ _ ih ih' => exact .new ih fun n hn => .value (ih' n hn)
  | unary hoperator _ ih => exact .unary hoperator ih
  | update hoperator _ _ ih => exact .update hoperator ih
  | binary hoperator hkind _ _ ih ih' => exact .binary hoperator hkind ih ih'
  | assignment hoperator _ htarget _ ih ih' => exact .assignment hoperator ih htarget ih'
  | conditional _ _ _ ih ih' ih'' => exact .conditional ih ih' ih''
  | sequence hlength _ ih => exact .sequence hlength ih

namespace Ecma

/-! ## Which nonterminals take which -/

/-- The nonterminals that derive from one in so many steps. -/
def Goal.within : Nat → Goal → List Goal
  | 0, goal => [goal]
  | steps + 1, goal => goal :: goal.units.flatMap (within steps)

/-- What derives from the inner nonterminal derives from the outer one. -/
def Goal.Takes (outer inner : Goal) : Prop := inner ∈ outer.within 22

instance (outer inner : Goal) : Decidable (outer.Takes inner) :=
  inferInstanceAs (Decidable (inner ∈ outer.within 22))

theorem Derives.widen
    {outer inner : Goal} {tokens : List Token} {n : Node}
    (hderives : Derives inner tokens n) (htakes : outer.Takes inner) :
    Derives outer tokens n := by
  have hwithin : ∀ steps outer, inner ∈ Goal.within steps outer → Derives outer tokens n := by
    intro steps
    induction steps with
    | zero =>
        intro outer hinner
        cases List.mem_singleton.mp hinner
        exact hderives
    | succ steps ih =>
        intro outer hinner
        rw [Goal.within, List.mem_cons, List.mem_flatMap] at hinner
        rcases hinner with rfl | ⟨unit, hunit, hinner⟩
        · exact hderives
        · exact .unit hunit (ih unit hinner)
  exact hwithin 22 outer htakes

/-- The table entry of an operator that groups to the left. -/
def leftOperator? (operator : String) : Option (Goal × List String × Goal) :=
  leftOperators.find? fun entry => entry.2.1.contains operator

/-- What an operator makes. -/
def operatorGoal (operator : String) : Goal :=
  if operator = "**" then .exponent
  else if operator = "??" then .coalesce
  else ((leftOperator? operator).map Prod.fst).getD .primary

/-- What stands on the left of an operator. -/
def leftGoals (operator : String) : List Goal :=
  if operator = "**" then [.update]
  else if operator = "??" then [.coalesce, .bitOr]
  else [operatorGoal operator]

def rightGoal (operator : String) : Goal :=
  if operator = "**" then .exponent
  else if operator = "??" then .bitOr
  else ((leftOperator? operator).map fun entry => entry.2.2).getD .primary

theorem Derives.operation
    {operator : String} {goal : Goal} {tokens tokens' : List Token} {left right : Node}
    (hoperator : operator ∈ binaryOperators)
    (hgoal : goal ∈ leftGoals operator)
    (hleft : Derives goal tokens left)
    (hright : Derives (rightGoal operator) tokens' right) :
    Derives (operatorGoal operator) (tokens ++ .ofOperator operator :: tokens')
      (binaryOf operator left right) := by
  have hcases : ∀ operator ∈ binaryOperators, operator = "**" ∨ operator = "??" ∨
      ∃ entry ∈ leftOperators, operator ∈ entry.2.1 ∧ leftGoals operator = [entry.1] ∧
        operatorGoal operator = entry.1 ∧ rightGoal operator = entry.2.2 := by decide +kernel
  rcases hcases operator hoperator with
    rfl | rfl | ⟨entry, hentry, hmem, hleftGoal, hmade, hrightGoal⟩
  · cases List.mem_singleton.mp hgoal
    exact .power hleft hright
  · exact .coalesce hgoal hleft hright
  · rw [hleftGoal] at hgoal
    cases List.mem_singleton.mp hgoal
    rw [hmade]
    rw [hrightGoal] at hright
    exact .binary hentry hmem hleft hright

theorem nested_goals :
    ∀ operator ∈ binaryOperators, ∀ inner ∈ binaryOperators,
      (nestedLeast operator inner
          (if operator == "**" then Strength.postfixed else Strength.binary operator) ≤
            Strength.binary inner →
        ∃ goal ∈ leftGoals operator, goal.Takes (operatorGoal inner)) ∧
      (nestedLeast operator inner
          (if operator == "**" then Strength.binary operator else Strength.binary operator + 1) ≤
            Strength.binary inner →
        (rightGoal operator).Takes (operatorGoal inner)) := by
  decide +kernel

/-- The strengths of the printer and the nonterminals of all expressions but binary ones. -/
def ranks : List (Nat × Goal) :=
  [(Strength.sequence, .expression), (Strength.assignment, .assignment),
    (Strength.conditional, .conditional), (Strength.unary, .unary), (Strength.unary, .update),
    (Strength.postfixed, .update), (Strength.call, .call), (Strength.construct, .member),
    (Strength.member, .member), (Strength.member, .call), (Strength.primary, .primary)]

theorem ranked_goals :
    ∀ operator ∈ binaryOperators, ∀ rank ∈ ranks,
      ((if operator == "**" then Strength.postfixed else Strength.binary operator) ≤ rank.1 →
        ∃ goal ∈ leftGoals operator, goal.Takes rank.2) ∧
      ((if operator == "**" then Strength.binary operator else Strength.binary operator + 1) ≤
          rank.1 →
        (rightGoal operator).Takes rank.2) := by
  decide +kernel

end Ecma

open Ecma

variable {style : Style} {level least : Nat} {n : Node}

/-- The nonterminal that the text of a node derives from. -/
def Node.goal (style : Style) (n : Node) : Goal :=
  match n.kind with
  | .sequenceExpression => .expression
  | .assignmentExpression => .assignment
  | .conditionalExpression => .conditional
  | .binaryExpression | .logicalExpression => operatorGoal ((n.text? .operator).getD "")
  | .unaryExpression => .unary
  | .updateExpression => .update
  | .newExpression => .member
  | .callExpression | .memberExpression =>
    if (n.printed style).startsWithCall then .call else .member
  | _ => .primary

theorem Node.goal_binary
    {operator : String} {span : Span} {slots : List (Field × Slot)} :
    (Node.mk (binaryKind operator) span ((.operator, .text operator) :: slots)).goal style =
      operatorGoal operator := by
  unfold binaryKind
  split <;> rfl

theorem of_binary {operator : String} {span : Span} {slots : List (Field × Slot)} :
    Strength.of (.mk (binaryKind operator) span ((.operator, .text operator) :: slots)) =
      Strength.binary operator := by
  unfold binaryKind
  split <;> rfl

theorem binary_lt_call :
    ∀ operator ∈ binaryOperators,
      Strength.binary operator < Strength.call := by
  decide +kernel

/-- What the strength and the nonterminal of an expression can be. -/
inductive Node.Ranked (style : Style) (n : Node) : Prop
  | binary (inner : String) (hinner : inner ∈ binaryOperators)
      (hleast : ∀ operator least, Parts.operandStrength operator n least =
        nestedLeast operator inner least)
      (hof : Strength.of n = Strength.binary inner) (hgoal : n.goal style = operatorGoal inner)
  | other (hleast : ∀ operator least, Parts.operandStrength operator n least = least)
      (hrank : (Strength.of n, n.goal style) ∈ ranks)
      (hcall : n.goal style = .call → (n.printed style).startsWithCall = true)

theorem Node.Formula.ranked (hn : n.Formula) (style : Style) :
    n.Ranked style := by
  have hmember : ∀ {object property : Node} {computed : Slot} {span : Span},
      (Node.mk .memberExpression span [(.object, .node object), (.property, .node property),
        (.computed, computed), (.optional, .flag false)]).Ranked style := by
    intro object property computed span
    by_cases hcall : ((Node.mk .memberExpression span [(.object, .node object),
        (.property, .node property), (.computed, computed),
          (.optional, .flag false)]).printed style).startsWithCall = true
    · refine .other (fun _ _ => rfl) ?_ fun _ => hcall
      rw [Node.goal, Node.kind_mk]
      simp only [hcall, if_true]
      exact (by decide : (Strength.member, Goal.call) ∈ ranks)
    · have hgoal : (Node.mk .memberExpression span [(.object, .node object),
          (.property, .node property), (.computed, computed),
            (.optional, .flag false)]).goal style = .member := if_neg hcall
      refine .other (fun _ _ => rfl) ?_ fun hgoal' => ?_
      · rw [hgoal]
        exact (by decide : (Strength.member, Goal.member) ∈ ranks)
      · rw [hgoal] at hgoal'
        cases hgoal'
  cases hn with
  | @binary kind span inner left right hinner hkind =>
      subst hkind
      exact .binary inner hinner (fun _ _ => rfl) of_binary Node.goal_binary
  | member | element => exact hmember
  | @update span operator target prefixed =>
      cases prefixed
      · exact .other (fun _ _ => rfl) (by decide : (Strength.postfixed, Goal.update) ∈ ranks) nofun
      · exact .other (fun _ _ => rfl) (by decide : (Strength.unary, Goal.update) ∈ ranks) nofun
  | conditional =>
      exact .other (fun _ _ => rfl) (by decide : (Strength.conditional, Goal.conditional) ∈ ranks)
        nofun
  | assignment =>
      exact .other (fun _ _ => rfl) (by decide : (Strength.assignment, Goal.assignment) ∈ ranks)
        nofun
  | sequence =>
      exact .other (fun _ _ => rfl) (by decide : (Strength.sequence, Goal.expression) ∈ ranks) nofun
  | unary => exact .other (fun _ _ => rfl) (by decide : (Strength.unary, Goal.unary) ∈ ranks) nofun
  | call =>
      exact .other (fun _ _ => rfl) (by decide : (Strength.call, Goal.call) ∈ ranks) fun _ => rfl
  | new =>
      exact .other (fun _ _ => rfl) (by decide : (Strength.construct, Goal.member) ∈ ranks) nofun
  | _ =>
      exact .other (fun _ _ => rfl) (by decide : (Strength.primary, Goal.primary) ∈ ranks) nofun

namespace Node.Ranked

/-- An operand that is printed bare in front of an operator derives from what stands there. -/
theorem left
    {operator : String}
    (hn : n.Ranked style)
    (hoperator : operator ∈ binaryOperators)
    (hleast : Node.leftLeast operator n ≤ Strength.of n) :
    ∃ goal ∈ leftGoals operator, goal.Takes (n.goal style) := by
  rw [Node.leftLeast] at hleast
  cases hn with
  | binary inner hinner heq hof hgoal =>
      rw [heq, hof] at hleast
      rw [hgoal]
      exact (nested_goals operator hoperator inner hinner).1 hleast
  | other heq hrank _ =>
      rw [heq] at hleast
      exact (ranked_goals operator hoperator _ hrank).1 hleast

theorem right
    {operator : String}
    (hn : n.Ranked style)
    (hoperator : operator ∈ binaryOperators)
    (hleast : Node.rightLeast operator n ≤ Strength.of n) :
    (rightGoal operator).Takes (n.goal style) := by
  rw [Node.rightLeast] at hleast
  cases hn with
  | binary inner hinner heq hof hgoal =>
      rw [heq, hof] at hleast
      rw [hgoal]
      exact (nested_goals operator hoperator inner hinner).2 hleast
  | other heq hrank _ =>
      rw [heq] at hleast
      exact (ranked_goals operator hoperator _ hrank).2 hleast

/-- The places that ask for a strength and no particular operator. -/
def places : List (Nat × Goal) :=
  [(Strength.sequence, .expression), (Strength.assignment, .assignment),
    (Strength.logicalOr, .shortCircuit), (Strength.unary, .unary),
    (Strength.postfixed, .update), (Strength.call, .leftHandSide)]

theorem takes
    {place : Nat × Goal}
    (hn : n.Ranked style) (hplace : place ∈ places) (hleast : place.1 ≤ Strength.of n) :
    place.2.Takes (n.goal style) := by
  cases hn with
  | binary inner hinner _ hof hgoal =>
      have hall : ∀ place ∈ places, ∀ inner ∈ binaryOperators,
          place.1 ≤ Strength.binary inner → place.2.Takes (operatorGoal inner) := by decide +kernel
      rw [hgoal]
      exact hall place hplace inner hinner (hof ▸ hleast)
  | other _ hrank _ =>
      have hall : ∀ place ∈ places, ∀ rank ∈ ranks,
          place.1 ≤ rank.1 → place.2.Takes rank.2 := by decide +kernel
      exact hall place hplace _ hrank hleast

/-- A chain without a call at its left end can stand behind `new`. -/
theorem takes_member
    (hn : n.Ranked style)
    (hcall : (n.printed style).startsWithCall = false)
    (hof : Strength.call ≤ Strength.of n) :
    Goal.member.Takes (n.goal style) := by
  cases hn with
  | binary inner hinner _ heq _ =>
      have hlt := binary_lt_call inner hinner
      omega
  | other _ hrank hgoal =>
      have hall : ∀ rank ∈ ranks, Strength.call ≤ rank.1 →
          rank.2 = .call ∨ Goal.member.Takes rank.2 := by decide +kernel
      refine (hall _ hrank hof).resolve_left fun heq => ?_
      rw [hgoal heq] at hcall
      cases hcall

end Node.Ranked

end Graft
