import Graft.Proofs.Ecma.Reader

/-!
# The grammar is unambiguous

What derives from the grammar is read as the tree that it derives with, one production after the
other.  Since the reader has one answer, no tokens derive with two trees.
-/

namespace Graft.Ecma

open Grammar

namespace Reader

variable {n : Node} {tokens rest : List Token} {least : Nat} {calls : Bool}

/-! ## Lists and brackets -/

theorem settles_items
    {parts : List (List Token × Node)}
    (hne : parts ≠ [])
    (hparts : ∀ part ∈ parts, Operates Strength.assignment Strength.assignment part.1 part.2)
    (hrest : stops Strength.sequence rest = true) :
    Settles (fun fuel => items fuel (commas parts ++ rest)) (parts.map Prod.snd, rest) := by
  induction parts with
  | nil => exact absurd rfl hne
  | cons part parts ih =>
      have hpart := hparts part List.mem_cons_self
      cases parts with
      | nil =>
          have hstops := stops_mono hrest (by decide : _ ≤ Strength.assignment)
          have hfirst := hpart.exact (Nat.le_refl _) hstops hstops
          simp only [commas, List.flatMap_nil, List.append_nil]
          refine .step hfirst (.of_succ fun _ => ?_) fun fuel => by rw [items]
          split
          next heq =>
            cases heq
            cases hrest
          next => rfl
      | cons next parts =>
          have hothers := ih (by simp)
            fun other hother => hparts other (List.mem_cons_of_mem _ hother)
          have htokens : commas (part :: next :: parts) ++ rest =
              part.1 ++ .mark "," :: (commas (next :: parts) ++ rest) := by
            simp [commas]
          rw [htokens]
          have hcomma : stops Strength.assignment
              (.mark "," :: (commas (next :: parts) ++ rest)) = true := rfl
          have hfirst := hpart.exact (Nat.le_refl _) hcomma hcomma
          refine .step hfirst ?_ fun fuel => by rw [items]
          exact hothers.bind (.const _)

theorem expresses_sequenced
    {parts : List (List Token × Node)}
    (hne : parts ≠ [])
    (hparts : ∀ part ∈ parts, Operates Strength.assignment Strength.assignment part.1 part.2) :
    Expresses (commas parts) (sequenced (parts.map Prod.snd)) :=
  fun _ hrest => .step (settles_items hne hparts hrest) (.const _) fun _ => rfl

/-- An expression in brackets is read up to the closing one. -/
theorem Expresses.closed
    {mark : String}
    (hexpresses : Expresses tokens n) (hmark : mark ∈ [")", "]"])
    (rest : List Token) :
    Settles (fun fuel => (expression fuel (tokens ++ .mark mark :: rest)).bind (closing mark))
      (n, rest) := by
  have hstops : stops Strength.sequence (.mark mark :: rest) = true := by
    have hall : ∀ mark ∈ [")", "]"], (Token.mark mark).pull? = none := by decide +kernel
    simp [stops, hall mark hmark]
  refine (hexpresses _ hstops).bind ?_
  simpa using Settles.const (n, rest)

/-- The arguments of a call, behind the opening bracket. -/
theorem settles_listed
    {parts : List (List Token × Node)}
    (hparts : ∀ part ∈ parts, Operates Strength.assignment Strength.assignment part.1 part.2)
    (hopens : ∀ part ∈ parts, ∃ t rest, part.1 = t :: rest ∧ t ≠ .mark ")")
    (rest : List Token) :
    Settles (fun fuel => listed fuel (commas parts ++ .mark ")" :: rest))
      (parts.map Prod.snd, rest) := by
  cases parts with
  | nil => exact .of_succ fun _ => rfl
  | cons part parts =>
      obtain ⟨t, tokens, htokens, ht⟩ := hopens part List.mem_cons_self
      have hitems := settles_items (List.cons_ne_nil part parts) hparts
        (rfl : stops Strength.sequence (.mark ")" :: rest) = true)
      have hfirst : ∃ more, commas (part :: parts) ++ .mark ")" :: rest = t :: more :=
        ⟨_, by rw [commas, htokens]; rfl⟩
      obtain ⟨more, hmore⟩ := hfirst
      rw [hmore] at hitems ⊢
      refine .step (g := fun _ => closing ")") hitems ?_ fun fuel => ?_
      · simpa using Settles.const ((part :: parts).map Prod.snd, rest)
      · rw [listed, if_neg ht]

/-! ## Chains -/

theorem chains_identifier {name : String} (hname : name ∉ reserved) :
    Chains calls [.word name] (.identifier name) := by
  have hne : ∀ word ∈ ["new", "this", "true", "false", "null"], name ≠ word := by
    rintro word hword rfl
    have hall : ∀ word ∈ ["new", "this", "true", "false", "null"], word ∈ reserved := by decide
    exact hname (hall name hword)
  simp only [List.forall_mem_cons] at hne
  refine .of_primary fun rest => .of_succ fun _ => ?_
  simp [primary, hne, constants, List.lookup_cons, List.lookup_nil, beq_false_of_ne]

theorem chains_constant
    {word : String} {value : Scalar}
    (hword : (word, value) ∈ constants) :
    Chains calls [.word word] (literalOf value) := by
  refine .of_primary fun rest => .of_succ fun _ => ?_
  simp only [constants, List.mem_cons, Prod.mk.injEq, List.not_mem_nil, or_false] at hword
  rcases hword with ⟨rfl, rfl⟩ | ⟨rfl, rfl⟩ | ⟨rfl, rfl⟩ <;> rfl

theorem chains_group (hinner : Expresses tokens n) :
    Chains calls (.mark "(" :: (tokens ++ [.mark ")"])) n := by
  refine .of_primary fun rest => ?_
  rw [List.cons_append, List.append_assoc]
  exact .forward (hinner.closed (by decide : ")" ∈ [")", "]"]) rest) fun _ => rfl

theorem Chains.member {name : String} (hobject : Chains calls tokens n) :
    Chains calls (tokens ++ [.mark ".", .word name]) (memberOf n name) := by
  intro rest x hsuffixes
  rw [List.append_assoc]
  exact hobject _ x (.forward hsuffixes fun _ => rfl)

theorem Chains.element
    {inner : List Token} {index : Node}
    (hobject : Chains calls tokens n) (hindex : Expresses inner index) :
    Chains calls (tokens ++ .mark "[" :: (inner ++ [.mark "]"])) (elementOf n index) := by
  intro rest x hsuffixes
  rw [List.append_assoc, List.cons_append, List.append_assoc]
  refine hobject _ x ?_
  exact .step (g := fun fuel found => suffixes fuel calls (elementOf n found.1) found.2)
    (hindex.closed (by decide : "]" ∈ [")", "]"]) rest) hsuffixes fun _ => rfl

section Arguments

variable {parts : List (List Token × Node)}
  (hparts : ∀ part ∈ parts, Operates Strength.assignment Strength.assignment part.1 part.2)
  (hopens : ∀ part ∈ parts, ∃ t rest, part.1 = t :: rest ∧ t ≠ .mark ")")

include hparts hopens

theorem Chains.call (hcallee : Chains true tokens n) :
    Chains true (tokens ++ arguments parts) (callOf n (parts.map Prod.snd)) := by
  intro rest x hsuffixes
  rw [arguments, List.append_assoc, List.cons_append, List.append_assoc]
  refine hcallee _ x ?_
  exact .step (g := fun fuel found => suffixes fuel true (callOf n found.1) found.2)
    (settles_listed hparts hopens rest) hsuffixes fun _ => rfl

theorem chains_new (hcallee : Chains false tokens n) :
    Chains calls (.word "new" :: (tokens ++ arguments parts)) (newOf n (parts.map Prod.snd)) := by
  refine .of_primary fun rest => ?_
  rw [arguments, List.cons_append, List.append_assoc, List.cons_append, List.append_assoc]
  have hfirst := hcallee (.mark "(" :: (commas parts ++ ([.mark ")"] ++ rest))) _
    (.of_succ fun _ => rfl)
  refine .step hfirst ?_ fun fuel => rfl
  exact (settles_listed hparts hopens rest).bind (.const _)

end Arguments

theorem Closes.new (hcallee : Closes false tokens n) :
    Closes calls (.word "new" :: tokens) (newOf n []) := by
  intro rest hrest
  have hnew : Settles (fun fuel => primary fuel (.word "new" :: (tokens ++ rest)))
      (newOf n [], rest) := by
    refine .step (hcallee rest hrest) ?_ fun _ => rfl
    refine .of_succ fun _ => ?_
    split
    next heq =>
      cases heq
      cases hrest
    next => rfl
  exact .step hnew (suffixes_stops hrest) fun _ => rfl

/-! ## Operands and operations -/

theorem update_facts :
    ∀ operator ∈ ["++", "--"], (Token.mark operator).unary? = none ∧
      (Token.mark operator).update? = some operator ∧
        (Token.mark operator).pull? = some Strength.member := by
  decide +kernel

/-- An operand that no sign stands in front of. -/
theorem Closes.operand_updated
    {t : Token}
    (hcloses : Closes true (t :: tokens) n)
    (hunary : t.unary? = none)
    (hupdate : t.update? = none)
    (hrest : stops Strength.primary rest = true) :
    Settles (fun fuel => operand fuel (t :: tokens ++ rest)) (updated n rest) := by
  refine .step (g := fun _ found => some (updated found.1 found.2)) (hcloses rest hrest) (.const _)
    fun fuel => ?_
  simp only [List.cons_append, operand, hunary, hupdate]

theorem Closes.operand
    {t : Token}
    (hcloses : Closes true (t :: tokens) n)
    (hunary : t.unary? = none)
    (hupdate : t.update? = none) :
    Operand (t :: tokens) n := by
  intro rest hrest
  have hread := hcloses.operand_updated hunary hupdate (stops_mono hrest (by decide))
  rwa [updated_stops hrest] at hread

theorem Closes.updateBehind
    {t : Token} {operator : String}
    (hcloses : Closes true (t :: tokens) n)
    (hunary : t.unary? = none)
    (hupdate : t.update? = none)
    (hoperator : operator ∈ ["++", "--"]) :
    Operand (t :: tokens ++ [.mark operator]) (updateOf operator false n) := by
  intro rest _
  obtain ⟨-, hbehind, hpull⟩ := update_facts operator hoperator
  have hstops : stops Strength.primary (.mark operator :: rest) = true := by
    simp only [stops, hpull]
    decide
  have hread := hcloses.operand_updated hunary hupdate hstops
  rw [List.append_assoc, List.singleton_append]
  simpa only [updated, hbehind] using hread

theorem Operand.updateBefore
    {operator : String}
    (hargument : Operand tokens n) (hoperator : operator ∈ ["++", "--"]) :
    Operand (.mark operator :: tokens) (updateOf operator true n) := by
  intro rest hrest
  obtain ⟨hunary, hupdate, -⟩ := update_facts operator hoperator
  refine .step (g := fun _ found => some (updateOf operator true found.1, found.2))
    (hargument rest hrest) (.const _) fun fuel => ?_
  simp only [List.cons_append, operand, hunary, hupdate]

theorem Operand.unary
    {operator : String}
    (hargument : Operand tokens n) (hoperator : operator ∈ unaryOperators) :
    Operand (.ofOperator operator :: tokens) (unaryOf operator n) := by
  intro rest hrest
  have hall : ∀ operator ∈ unaryOperators,
      (Token.ofOperator operator).unary? = some operator := by decide +kernel
  refine .step (g := fun _ found => some (unaryOf operator found.1, found.2))
    (hargument rest hrest) (.const _) fun fuel => ?_
  simp only [List.cons_append, operand, hall operator hoperator]

/-- The right operand of an operator, in front of what stops it. -/
theorem settles_binary
    {operator : String} {level follow : Nat} {right : Node}
    (hright : Operates level follow tokens right)
    (hlevel : rightLevel operator ≤ level)
    (hfollow : rightLevel operator ≤ follow)
    (hrest : stops (rightLevel operator) rest = true) :
    Settles (fun fuel => joined fuel (.binary operator) n (tokens ++ rest))
      (binaryOf operator n right, rest) :=
  .step (hright.exact hlevel (stops_mono hrest hfollow) hrest) (.const _) fun _ => rfl

theorem Operates.binary
    {operator : String} {level follow level' follow' : Nat} {right : Node} {behind : List Token}
    (hoperator : operator ∈ binaryOperators)
    (hleft : Operates level follow tokens n)
    (hright : Operates level' follow' behind right)
    (hlevel : Strength.binary operator ≤ level)
    (hfollow : Strength.binary operator < follow)
    (hlevel' : rightLevel operator ≤ level')
    (hfollow' : rightLevel operator ≤ follow') :
    Operates (Strength.binary operator) (rightLevel operator)
      (tokens ++ .ofOperator operator :: behind) (binaryOf operator n right) := by
  have hjoint : ∀ operator ∈ binaryOperators,
      (Token.ofOperator operator).joint? = some (.binary operator) := by decide +kernel
  exact hleft.join (hjoint operator hoperator) (Nat.le_refl _) hlevel hfollow fun rest hrest =>
    settles_binary hright hlevel' hfollow' hrest

theorem Operates.conditional
    {follow : Nat} {consequent alternate : Node} {tokens' tokens'' : List Token}
    (htest : Operates Strength.logicalOr follow tokens n)
    (hfollow : Strength.conditional < follow)
    (hconsequent : Operates Strength.assignment Strength.assignment tokens' consequent)
    (halternate : Operates Strength.assignment Strength.assignment tokens'' alternate) :
    Operates Strength.conditional Strength.assignment
      (tokens ++ .mark "?" :: (tokens' ++ .mark ":" :: tokens''))
      (conditionalOf n consequent alternate) := by
  have hjoint : (Token.mark "?").joint? = some .test := rfl
  refine htest.join hjoint (Nat.le_refl _) (by decide) hfollow fun rest hrest => ?_
  rw [List.append_assoc, List.cons_append]
  have hcolon : stops Strength.assignment (.mark ":" :: (tokens'' ++ rest)) = true := rfl
  have hfirst := (hconsequent.exact (Nat.le_refl _) hcolon hcolon).bind
    (g := fun _ => closing ":") (.of_succ fun _ => closing_mark _ _ _)
  refine .step hfirst ?_ fun _ => rfl
  exact (halternate.exact (Nat.le_refl _) hrest hrest).bind (.const _)

theorem Closes.assignment
    {t : Token} {operator : String} {value : Node} {behind : List Token}
    (hcloses : Closes true (t :: tokens) n)
    (hunary : t.unary? = none)
    (hupdate : t.update? = none)
    (hoperator : operator ∈ assignmentMarks)
    (hvalue : Operates Strength.assignment Strength.assignment behind value) :
    Operates Strength.assignment Strength.assignment
      (t :: tokens ++ .mark operator :: behind) (assignmentOf operator n value) := by
  have hjoint : ∀ operator ∈ assignmentMarks,
      (Token.mark operator).joint? = some (.assignment operator) := by decide +kernel
  have htarget : Operates Strength.assignment Strength.member (t :: tokens) n :=
    (hcloses.operand hunary hupdate).operates (Nat.le_refl _)
  refine htarget.join (hjoint operator hoperator) (Nat.le_refl _) (Nat.le_refl _)
    (by decide : Strength.assignment < Strength.member) fun rest hrest => ?_
  exact .step (hvalue.exact (Nat.le_refl _) hrest hrest) (.const _) fun _ => rfl

end Reader

/-! ## What derives is read -/

/-- The strength of the operations of a nonterminal. -/
def Goal.level : Goal → Nat
  | .assignment => Strength.assignment
  | .conditional => Strength.conditional
  | .shortCircuit | .coalesce | .logicalOr => Strength.binary "||"
  | .logicalAnd => Strength.binary "&&"
  | .bitOr => Strength.binary "|"
  | .bitXor => Strength.binary "^"
  | .bitAnd => Strength.binary "&"
  | .equality => Strength.binary "=="
  | .relational => Strength.binary "<"
  | .shift => Strength.binary "<<"
  | .additive => Strength.binary "+"
  | .multiplicative => Strength.binary "*"
  | _ => Strength.binary "**"

/-- What stands behind the operations of a nonterminal is weaker than this. -/
def Goal.follow : Goal → Nat
  | .assignment | .conditional => Strength.assignment
  | .exponent => Strength.binary "**"
  | goal => goal.level + 1

/-- The reading of the tokens that derive from a nonterminal. -/
def Rereads : Goal → List Token → Node → Prop
  | .primary, tokens, n | .member, tokens, n => ∀ calls, Reader.Chains calls tokens n
  | .call, tokens, n => Reader.Chains true tokens n
  | .new, tokens, n => ∀ calls, Reader.Closes calls tokens n
  | .leftHandSide, tokens, n => Reader.Closes true tokens n
  | .update, tokens, n | .unary, tokens, n => Reader.Operand tokens n
  | .expression, tokens, n => Reader.Expresses tokens n
  | goal, tokens, n => Reader.Operates goal.level goal.follow tokens n

/-- The nonterminals that no sign starts. -/
def chainGoals : List Goal := [.primary, .member, .new, .call, .leftHandSide]

variable {goal : Goal} {tokens : List Token} {n : Node}

theorem units_chainGoals : ∀ goal ∈ chainGoals, ∀ inner ∈ goal.units, inner ∈ chainGoals := by
  decide

/-- The first of the tokens that derive from a nonterminal. -/
structure FirstToken (goal : Goal) (tokens : List Token) (t : Token) (rest : List Token) :
    Prop where
  eq_cons : tokens = t :: rest
  ne_close : t ≠ .mark ")"
  plain : goal ∈ chainGoals → t.unary? = none ∧ t.update? = none

theorem FirstToken.append
    {t : Token} {rest : List Token} {goal' : Goal}
    (hopens : FirstToken goal tokens t rest)
    (behind : List Token)
    (hgoal : goal' ∈ chainGoals → goal ∈ chainGoals) :
    FirstToken goal' (tokens ++ behind) t (rest ++ behind) where
  eq_cons := by rw [hopens.eq_cons, List.cons_append]
  ne_close := hopens.ne_close
  plain hgoal' := hopens.plain (hgoal hgoal')

theorem Derives.firstToken (hderives : Derives goal tokens n) :
    ∃ t rest, FirstToken goal tokens t rest := by
  have hother : ∀ {goal : Goal}, goal ∉ chainGoals → ∀ t : Token,
      goal ∈ chainGoals → t.unary? = none ∧ t.update? = none :=
    fun hgoal _ hmem => absurd hmem hgoal
  induction hderives with
  | unit hunit _ ih =>
      obtain ⟨t, rest, hopens⟩ := ih
      exact ⟨t, rest, hopens.eq_cons, hopens.ne_close,
        fun hgoal => hopens.plain (units_chainGoals _ hgoal _ hunit)⟩
  | @identifier name hname =>
      have hunary : name ∉ unaryWords := by
        have hall : ∀ word ∈ unaryWords, word ∈ reserved := by decide
        exact fun hmem => hname (hall name hmem)
      exact ⟨_, [], rfl, by simp, fun _ => ⟨if_neg hunary, rfl⟩⟩
  | this => exact ⟨_, [], rfl, by decide, fun _ => by decide⟩
  | @constant word value hword =>
      have hall : ∀ entry ∈ constants, (Token.word entry.1).unary? = none := by decide
      exact ⟨_, [], rfl, by simp, fun _ => ⟨hall _ hword, rfl⟩⟩
  | number => exact ⟨_, [], rfl, by simp, fun _ => ⟨rfl, rfl⟩⟩
  | group => exact ⟨_, _, rfl, by decide, fun _ => by decide⟩
  | member _ _ ih =>
      obtain ⟨t, rest, hopens⟩ := ih
      exact ⟨t, _, hopens.append _ id⟩
  | element _ _ _ ih =>
      obtain ⟨t, rest, hopens⟩ := ih
      exact ⟨t, _, hopens.append _ id⟩
  | call hgoal _ _ ih =>
      obtain ⟨t, rest, hopens⟩ := ih
      have hall : ∀ goal ∈ [Goal.member, Goal.call], goal ∈ chainGoals := by decide
      exact ⟨t, _, hopens.append _ fun _ => hall _ hgoal⟩
  | construct => exact ⟨_, _, rfl, by decide, fun _ => by decide⟩
  | constructPlain => exact ⟨_, _, rfl, by decide, fun _ => by decide⟩
  | @updateBefore _ operator _ hoperator =>
      have hall : ∀ operator ∈ ["++", "--"], Token.mark operator ≠ .mark ")" := by decide
      exact ⟨_, _, rfl, hall operator hoperator, hother (by decide) _⟩
  | updateBehind _ _ _ ih =>
      obtain ⟨t, rest, hopens⟩ := ih
      exact ⟨t, _, hopens.append _ (by decide)⟩
  | @unary _ operator _ hoperator =>
      have hall : ∀ operator ∈ unaryOperators, Token.ofOperator operator ≠ .mark ")" := by decide
      exact ⟨_, _, rfl, hall operator hoperator, hother (by decide) _⟩
  | power _ _ ih =>
      obtain ⟨t, rest, hopens⟩ := ih
      exact ⟨t, _, hopens.append _ (by decide)⟩
  | binary _ _ _ _ ih =>
      obtain ⟨t, rest, hopens⟩ := ih
      exact ⟨t, _, hopens.append _ id⟩
  | coalesce _ _ _ ih =>
      obtain ⟨t, rest, hopens⟩ := ih
      exact ⟨t, _, hopens.append _ (by simp [chainGoals])⟩
  | conditional _ _ _ ih =>
      obtain ⟨t, rest, hopens⟩ := ih
      exact ⟨t, _, hopens.append _ (by decide)⟩
  | assignment _ _ _ _ ih =>
      obtain ⟨t, rest, hopens⟩ := ih
      exact ⟨t, _, hopens.append _ (by decide)⟩
  | @sequence parts hlength _ ih =>
      cases parts with
      | nil => simp at hlength
      | cons part parts =>
          obtain ⟨t, rest, hopens⟩ := ih part List.mem_cons_self
          exact ⟨t, _, hopens.append _ (by decide)⟩

/-- The nonterminals that are read as operations. -/
def operationGoals : List Goal :=
  [.exponent, .multiplicative, .additive, .shift, .relational, .equality, .bitAnd, .bitXor, .bitOr,
    .logicalAnd, .logicalOr, .coalesce, .shortCircuit, .conditional, .assignment]

theorem rereads_operation (hgoal : goal ∈ operationGoals) :
    Rereads goal tokens n = Reader.Operates goal.level goal.follow tokens n := by
  cases goal with
  | primary | member | new | call | leftHandSide | update | unary | expression =>
      exact absurd hgoal (by decide)
  | _ => rfl

theorem leftOperators_facts :
    ∀ entry ∈ leftOperators,
      entry.1 ∈ operationGoals ∧ entry.2.2 ∈ operationGoals ∧ ∀ operator ∈ entry.2.1,
        operator ∈ binaryOperators ∧ Strength.binary operator = entry.1.level ∧
          rightLevel operator = entry.1.follow ∧ entry.1.level < entry.1.follow ∧
            entry.1.follow ≤ entry.2.2.level ∧ entry.1.follow ≤ entry.2.2.follow := by
  decide +kernel

theorem operation_units :
    ∀ goal ∈ operationGoals, ∀ inner ∈ goal.units,
      inner = .unary ∨
        inner ∈ operationGoals ∧ goal.level ≤ inner.level ∧ goal.follow ≤ inner.follow := by
  decide +kernel

theorem Rereads.unit
    {inner : Goal}
    (hinner : Rereads inner tokens n)
    (hderives : Derives inner tokens n)
    (hunit : inner ∈ goal.units) :
    Rereads goal tokens n := by
  by_cases hgoal : goal ∈ operationGoals
  · rw [rereads_operation hgoal]
    rcases operation_units goal hgoal inner hunit with rfl | ⟨hmem, hlevel, hfollow⟩
    · have hbound : ∀ goal ∈ operationGoals, goal.follow ≤ Strength.member := by decide +kernel
      exact Reader.Operand.operates hinner (hbound goal hgoal)
    · rw [rereads_operation hmem] at hinner
      exact hinner.mono hlevel hfollow
  · cases goal with
    | primary => cases hunit
    | call => cases hunit
    | member =>
        cases List.mem_singleton.mp hunit
        exact hinner
    | new =>
        cases List.mem_singleton.mp hunit
        exact fun calls => (hinner calls).closes
    | leftHandSide =>
        simp only [Goal.units, List.mem_cons, List.not_mem_nil, or_false] at hunit
        rcases hunit with rfl | rfl
        · exact hinner true
        · exact Reader.Chains.closes hinner
    | update =>
        cases List.mem_singleton.mp hunit
        obtain ⟨t, rest, hopens⟩ := hderives.firstToken
        obtain ⟨hunary, hupdate⟩ := hopens.plain (by decide)
        obtain rfl := hopens.eq_cons
        exact Reader.Closes.operand hinner hunary hupdate
    | unary =>
        cases List.mem_singleton.mp hunit
        exact hinner
    | expression =>
        cases List.mem_singleton.mp hunit
        have hread := Reader.expresses_sequenced (List.cons_ne_nil (tokens, n) [])
          (List.forall_mem_singleton.mpr hinner)
        rwa [commas, List.flatMap_nil, List.append_nil] at hread
    | _ => exact absurd (by decide) hgoal

/-- What derives from a nonterminal is read as the tree that it derives with. -/
theorem Derives.rereads (hderives : Derives goal tokens n) :
    Rereads goal tokens n := by
  have hopens : ∀ parts : List (List Token × Node),
      (∀ part ∈ parts, Derives .assignment part.1 part.2) →
        ∀ part ∈ parts, ∃ t rest, part.1 = t :: rest ∧ t ≠ .mark ")" := by
    intro parts hparts part hpart
    obtain ⟨t, rest, hopens⟩ := (hparts part hpart).firstToken
    exact ⟨t, rest, hopens.eq_cons, hopens.ne_close⟩
  induction hderives with
  | unit hunit hinner ih => exact ih.unit hinner hunit
  | identifier hname => exact fun _ => Reader.chains_identifier hname
  | this => exact fun _ => .of_primary fun _ => .of_succ fun _ => rfl
  | constant hword => exact fun _ => Reader.chains_constant hword
  | number => exact fun _ => .of_primary fun _ => .of_succ fun _ => rfl
  | group _ ih => exact fun _ => Reader.chains_group ih
  | member hgoal _ ih =>
      simp only [List.mem_cons, List.not_mem_nil, or_false] at hgoal
      rcases hgoal with rfl | rfl
      · exact fun calls => (ih calls).member
      · exact Reader.Chains.member ih
  | element hgoal _ _ ih ihindex =>
      simp only [List.mem_cons, List.not_mem_nil, or_false] at hgoal
      rcases hgoal with rfl | rfl
      · exact fun calls => (ih calls).element ihindex
      · exact Reader.Chains.element ih ihindex
  | call hgoal _ hparts ih ihparts =>
      simp only [List.mem_cons, List.not_mem_nil, or_false] at hgoal
      rcases hgoal with rfl | rfl
      · exact (ih true).call ihparts (hopens _ hparts)
      · exact Reader.Chains.call ihparts (hopens _ hparts) ih
  | construct _ hparts ih ihparts =>
      exact fun _ => Reader.chains_new ihparts (hopens _ hparts) (ih false)
  | constructPlain _ ih => exact fun _ => (ih false).new
  | updateBefore hoperator _ _ ih => exact Reader.Operand.updateBefore ih hoperator
  | updateBehind hoperator hargument _ ih =>
      obtain ⟨t, rest, hfirst⟩ := hargument.firstToken
      obtain ⟨hunary, hupdate⟩ := hfirst.plain (by decide)
      obtain rfl := hfirst.eq_cons
      exact Reader.Closes.updateBehind ih hunary hupdate hoperator
  | unary hoperator _ ih => exact Reader.Operand.unary ih hoperator
  | power _ _ ih ih' =>
      have hbase : Reader.Operates (Strength.binary "**") Strength.member _ _ :=
        Reader.Operand.operates ih (Nat.le_refl _)
      exact hbase.binary (by decide : "**" ∈ binaryOperators) ih' (Nat.le_refl _) (by decide)
        (Nat.le_refl _) (Nat.le_refl _)
  | binary hgoal hoperator _ _ ih ih' =>
      obtain ⟨hmem, hmem', hfacts⟩ := leftOperators_facts _ hgoal
      obtain ⟨hbinary, hlevel, hright, hlt, hle, hle'⟩ := hfacts _ hoperator
      rw [rereads_operation hmem] at ih ⊢
      rw [rereads_operation hmem'] at ih'
      rw [← hright] at hle hle'
      have hread := ih.binary hbinary ih' (Nat.le_of_eq hlevel) (hlevel ▸ hlt) hle hle'
      rwa [hlevel, hright] at hread
  | coalesce hgoal _ _ ih ih' =>
      simp only [List.mem_cons, List.not_mem_nil, or_false] at hgoal
      rcases hgoal with rfl | rfl
      · exact Reader.Operates.binary (by decide : "??" ∈ binaryOperators) ih ih' (by decide)
          (by decide) (by decide) (by decide)
      · exact Reader.Operates.binary (by decide : "??" ∈ binaryOperators) ih ih' (by decide)
          (by decide) (by decide) (by decide)
  | conditional _ _ _ ih ih' ih'' =>
      exact Reader.Operates.conditional ih (by decide) ih' ih''
  | assignment hoperator hleft _ _ ih ih' =>
      obtain ⟨t, rest, hfirst⟩ := hleft.firstToken
      obtain ⟨hunary, hupdate⟩ := hfirst.plain (by decide)
      obtain rfl := hfirst.eq_cons
      exact Reader.Closes.assignment ih hunary hupdate hoperator ih'
  | @sequence parts hlength hparts ih =>
      have hread := Reader.expresses_sequenced (List.ne_nil_of_length_pos (by omega)) ih
      obtain ⟨first, others, rfl⟩ := List.exists_cons_of_length_pos (by omega : 0 < parts.length)
      rw [List.length_cons] at hlength
      obtain ⟨second, others, rfl⟩ := List.exists_cons_of_length_pos (by omega : 0 < others.length)
      exact hread

/-- Tokens derive as an expression with one tree at most. -/
theorem Derives.unique
    {n' : Node}
    (hn : Derives .expression tokens n) (hn' : Derives .expression tokens n') :
    n = n' := by
  have hread := hn.rereads [] rfl
  have hread' := hn'.rereads [] rfl
  exact congrArg Prod.fst (hread.unique hread')

end Graft.Ecma
