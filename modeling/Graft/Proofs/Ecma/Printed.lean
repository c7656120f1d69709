import Graft.Proofs.Ecma.Places
import Graft.Proofs.Ecma.Spelling
import Graft.Proofs.Ecma.Unambiguous
import Graft.Proofs.Reprint.Program

/-!
# Printed expressions derive

The printed text of every expression of operators, members and calls derives from the grammar of
the standard with a tree of the same structure, and with no other tree.
-/

namespace Graft

open Grammar Ecma

variable {style : Style} {level least : Nat} {n : Node}

/-! ## Texts that derive -/

/-- The text derives from the nonterminal, with a tree of the structure of the node. -/
def Stands (goal : Goal) (dot : Bool) (text : List Char) (n : Node) : Prop :=
  ∃ tokens found, Derives goal tokens found ∧ found.sameStructure n = true ∧ Spells text dot tokens

namespace Stands

variable {goal : Goal} {dot : Bool} {text : List Char}

theorem widen
    {outer : Goal}
    (htext : Stands goal dot text n) (htakes : outer.Takes goal) :
    Stands outer dot text n := by
  obtain ⟨tokens, found, hderives, hsame, hspells⟩ := htext
  exact ⟨tokens, found, hderives.widen htakes, hsame, hspells⟩

theorem weaken
    {dot' : Bool}
    (htext : Stands goal dot text n) (hdot : dot' = true → dot = true) :
    Stands goal dot' text n := by
  obtain ⟨tokens, found, hderives, hsame, hspells⟩ := htext
  exact ⟨tokens, found, hderives, hsame, hspells.weaken hdot⟩

/-- A dot need not be able to follow. -/
theorem withoutDot (htext : Stands goal dot text n) :
    Stands goal false text n :=
  htext.weaken fun hdot => absurd hdot Bool.false_ne_true

theorem group (htext : Stands .expression dot text n) :
    Stands .primary true ('(' :: (text ++ [')'])) n := by
  obtain ⟨tokens, found, hderives, hsame, hspells⟩ := htext
  exact ⟨_, found, .group hderives, hsame, hspells.bracketed (by decide) (by decide)⟩

end Stands

/-- A dot may stand behind the text. -/
def Node.takesDot (n : Node) : Bool :=
  decide (Strength.call ≤ Strength.of n) && !Parts.isBareInteger n

/-- The text of an expression derives from its nonterminal. -/
structure Node.Derivable (style : Style) (level : Nat) (n : Node) : Prop where
  formula : n.Formula
  stands : Stands (n.goal style) n.takesDot (n.text style level) n

namespace Node.Derivable

variable (hn : n.Derivable style level)

include hn

theorem expression : Stands .expression false (n.text style level) n :=
  (hn.stands.widen ((hn.formula.ranked style).takes
    (by decide : (Strength.sequence, Goal.expression) ∈ Ranked.places)
      (Nat.zero_le _))).withoutDot

theorem group : Stands .primary true ('(' :: (n.text style level ++ [')'])) n :=
  hn.expression.group

/-- An operand, in parentheses or not, in a place that takes its nonterminal. -/
theorem operand
    {goal : Goal}
    (hprimary : goal.Takes .primary) (hbare : least ≤ Strength.of n → goal.Takes (n.goal style)) :
    Stands goal false (n.operandText style level least) n := by
  rw [Node.operandText_eq]
  split
  case isTrue hweak => exact (hn.group.widen hprimary).withoutDot
  case isFalse hstrong => exact (hn.stands.widen (hbare (by omega))).withoutDot

theorem placed {goal : Goal} (hplace : (least, goal) ∈ Ranked.places) :
    Stands goal false (n.operandText style level least) n := by
  have hall : ∀ place ∈ Ranked.places, place.2.Takes .primary := by decide +kernel
  exact hn.operand (hall _ hplace) fun hleast => (hn.formula.ranked style).takes hplace hleast

end Node.Derivable

/-! ## Chains -/

/-- The nonterminal of a chain of members and calls. -/
def chainGoal (calls : Bool) : Goal := if calls then .call else .member

theorem chainGoal_mem (calls : Bool) : chainGoal calls ∈ [Goal.member, Goal.call] := by
  cases calls <;> decide

theorem Node.startsWithCall_kind (hcall : (n.printed style).startsWithCall = true) :
    n.kind = .callExpression ∨ n.kind = .memberExpression := by
  obtain ⟨kind, span, slots⟩ := n
  have hcall : Parts.startsWithCall ⟨style, .mk kind span slots, printedSlots style slots⟩ =
    true := hcall
  unfold Parts.startsWithCall at hcall
  split at hcall
  case h_1 hkind => exact .inl hkind
  case h_2 hkind => exact .inr hkind
  case h_3 => cases hcall

/-- A chain with a call at its left end is never put in parentheses. -/
theorem Node.startsWithCall_facts (hcall : (n.printed style).startsWithCall = true) :
    n.goal style = .call ∧ Strength.call ≤ Strength.of n ∧ Parts.isBareInteger n = false := by
  rcases Node.startsWithCall_kind hcall with hkind | hkind
  · refine ⟨by simp [Node.goal, hkind, hcall], ?_, by simp [Parts.isBareInteger, hkind]⟩
    simp [Strength.of, hkind]
  · refine ⟨by simp [Node.goal, hkind, hcall], ?_, by simp [Parts.isBareInteger, hkind]⟩
    simp only [Strength.of, hkind]
    decide

namespace Node.Derivable

variable (hn : n.Derivable style level)

include hn

/-- The first part of a chain of members and calls. -/
theorem chain
    (hcalls : (n.printed style).startsWithCall = true → least ≤ Strength.call)
    (hleast : Strength.call ≤ least) :
    Stands (chainGoal (n.printed style).startsWithCall) (!Parts.isBareInteger n)
      (n.operandText style level least) n := by
  have hdotted : least ≤ Strength.of n → n.takesDot = !Parts.isBareInteger n := by
    intro hof
    simp [Node.takesDot, Nat.le_trans hleast hof]
  have hstands := hn.stands
  rw [Node.operandText_eq]
  cases hcall : (n.printed style).startsWithCall with
  | true =>
      obtain ⟨hgoal, hof, -⟩ := Node.startsWithCall_facts hcall
      have hle : least ≤ Strength.of n := Nat.le_trans (hcalls hcall) hof
      rw [if_neg (Nat.not_lt.mpr hle)]
      rwa [hdotted hle, hgoal] at hstands
  | false =>
      split
      case isTrue => exact (hn.group.widen (by decide)).weaken fun _ => rfl
      case isFalse hstrong =>
        have hle : least ≤ Strength.of n := Nat.not_lt.mp hstrong
        rw [hdotted hle] at hstands
        exact hstands.widen
          ((hn.formula.ranked style).takes_member hcall (Nat.le_trans hleast hle))

/-- The object of a member. -/
theorem object :
    Stands (chainGoal (n.printed style).startsWithCall) true (n.objectText style level) n := by
  rw [Node.objectText]
  split
  case isTrue hinteger =>
    have hcall : (n.printed style).startsWithCall = false := by
      cases hcall : (n.printed style).startsWithCall with
      | false => rfl
      | true =>
          rw [(Node.startsWithCall_facts hcall).2.2] at hinteger
          cases hinteger
    have hinner : Stands .expression false (n.operandText style level Strength.call) n :=
      hn.operand (by decide) fun _ => (hn.formula.ranked style).takes
        (by decide : (Strength.sequence, Goal.expression) ∈ Ranked.places) (Nat.zero_le _)
    rw [hcall]
    exact hinner.group.widen (by decide)
  case isFalse hinteger =>
    have hchain := hn.chain (fun _ => Nat.le_refl _) (Nat.le_refl Strength.call)
    rwa [Bool.not_eq_true _ |>.mp hinteger] at hchain

/-- The operand of `new`. -/
theorem callee :
    Stands .member false (n.calleeText style level) n := by
  rw [Node.calleeText]
  split
  case isTrue hcall =>
    rw [Node.operandText_sequence]
    exact (hn.group.widen (by decide)).withoutDot
  case isFalse hcall =>
    have hchain := hn.chain (fun htrue => absurd htrue hcall)
      (by decide : Strength.call ≤ Strength.construct)
    rw [Bool.not_eq_true _ |>.mp hcall] at hchain
    exact hchain.withoutDot

end Node.Derivable

/-! ## Lists -/

theorem isBound_items
    {texts : List (List Char)} {tail : List Char}
    (htail : isBound false tail = true) :
    isBound false ((texts.flatMap fun text => ',' :: ' ' :: text) ++ tail) = true := by
  cases texts with
  | nil => exact htail
  | cons text texts => rfl

/-- The parts of a list derive, with trees of the structures of its items. -/
structure Listed (ns : List Node) (parts : List (List Token × Node)) : Prop where
  derives : ∀ part ∈ parts, Derives .assignment part.1 part.2
  same : sameSequence (parts.map Prod.snd) ns = true

theorem Listed.cons
    {ns : List Node} {parts : List (List Token × Node)} {tokens : List Token} {found : Node}
    (hparts : Listed ns parts)
    (hderives : Derives .assignment tokens found)
    (hsame : found.sameStructure n = true) :
    Listed (n :: ns) ((tokens, found) :: parts) where
  derives := List.forall_mem_cons.mpr ⟨hderives, hparts.derives⟩
  same := by simp [sameSequence, hsame, hparts.same]

theorem Node.Derivable.item (hn : n.Derivable style level) :
    Stands .assignment false (n.operandText style level Strength.assignment) n :=
  hn.placed (by decide : (Strength.assignment, Goal.assignment) ∈ Node.Ranked.places)

/-- The items of a list behind the first. -/
theorem exists_listed_behind {ns : List Node} (hns : ∀ n ∈ ns, n.Derivable style level) :
    ∃ parts, Listed ns parts ∧
      Spells ((itemTexts style level ns).flatMap fun text => ',' :: ' ' :: text) false
        (parts.flatMap fun part => .mark "," :: part.1) := by
  induction ns with
  | nil => exact ⟨[], ⟨by simp, rfl⟩, fun _ _ _ hrest => hrest⟩
  | cons n ns ih =>
      obtain ⟨parts, hparts, hspells⟩ := ih fun n hn => hns n (List.mem_cons_of_mem _ hn)
      obtain ⟨tokens, found, hderives, hsame, hfirst⟩ := (hns n List.mem_cons_self).item
      refine ⟨(tokens, found) :: parts, hparts.cons hderives hsame, ?_⟩
      intro tail rest htail hrest
      have hitem := hfirst _ _ (isBound_items htail) (hspells tail rest htail hrest)
      have hcomma : (',', ",") ∈ brackets := by decide
      simpa [itemTexts] using lexes_bracket hcomma (.space hitem)

theorem exists_listed {ns : List Node} (hns : ∀ n ∈ ns, n.Derivable style level) :
    ∃ parts, Listed ns parts ∧
      Spells (joined (itemTexts style level ns)) false (commas parts) := by
  cases ns with
  | nil => exact ⟨[], ⟨by simp, rfl⟩, fun _ _ _ hrest => hrest⟩
  | cons n ns =>
      obtain ⟨parts, hparts, hspells⟩ :=
        exists_listed_behind fun n hn => hns n (List.mem_cons_of_mem _ hn)
      obtain ⟨tokens, found, hderives, hsame, hfirst⟩ := (hns n List.mem_cons_self).item
      refine ⟨(tokens, found) :: parts, hparts.cons hderives hsame, ?_⟩
      intro tail rest htail hrest
      have hitem := hfirst _ _ (isBound_items htail) (hspells tail rest htail hrest)
      simpa [itemTexts, joined, commas] using hitem

theorem exists_arguments {ns : List Node} (hns : ∀ n ∈ ns, n.Derivable style level) :
    ∃ parts, Listed ns parts ∧
      Spells ('(' :: (joined (itemTexts style level ns) ++ [')'])) true (arguments parts) := by
  obtain ⟨parts, hparts, hspells⟩ := exists_listed hns
  exact ⟨parts, hparts, hspells.bracketed (by decide) (by decide)⟩

/-! ## One kind of node after the other -/

variable {span : Span}

/-- An operand, an operator with blanks around it and what stands behind. -/
theorem spells_spaced
    {operator : String} {text text' : List Char} {tokens tokens' : List Token}
    (hoperator : operator ∈ spacedOperators)
    (hleft : Spells text false tokens)
    (hright : Spells text' false tokens') :
    Spells (text ++ ' ' :: (operator.toList ++ ' ' :: text')) false
      (tokens ++ .ofOperator operator :: tokens') := by
  intro tail rest htail hrest
  have hbehind := lexes_spaced hoperator (hright tail rest htail hrest)
  have hread := hleft _ _ rfl hbehind
  simpa using hread

theorem Node.goal_member {object property : Node} {computed : Slot} :
    (Node.mk .memberExpression span [(.object, .node object), (.property, .node property),
      (.computed, computed), (.optional, .flag false)]).goal style =
        chainGoal (object.printed style).startsWithCall := by
  rw [← startsWithCall_member]
  rfl

theorem derivable_variable
    {name : String}
    (hname : isVariable name = true) (hword : name ∉ reserved) :
    (Node.identifier name span).Derivable style level := by
  refine ⟨.variableName hname hword, ?_⟩
  have hspells := spells_word (isNameText_of_isVariable hname)
  rw [Node.text_identifier]
  exact ⟨_, _, .identifier hword, sameStructure_identifier, hspells.weaken fun _ => rfl⟩

theorem derivable_integer
    {raw : String}
    (hne : raw.toList ≠ []) (hraw : raw.toList.all Char.isDigit = true) :
    (Node.mk .literal span [(.value, .scalar (.num (Numeral.value? raw) raw))]).Derivable
      style level := by
  refine ⟨.integer hne hraw, ?_⟩
  have hsame : Scalar.same (.num (Numeral.value? raw) raw) (.num (Numeral.value? raw) raw) = true :=
    Scalar.same_self ⟨rfl, fun _ hx => Numeral.not_isNaN_of_value? hx⟩
  have hinteger : Parts.isBareInteger (.mk .literal span
      [(.value, .scalar (.num (Numeral.value? raw) raw))]) = true := hraw
  rw [Node.text_scalar fun _ => by simp]
  refine ⟨_, _, .number, ?_, (spells_digits hne hraw).weaken fun hdot => ?_⟩
  · simpa [literalOf, Node.sameStructure, sameSlots, Slot.sameStructure] using hsame
  · simp [Node.takesDot, hinteger] at hdot

theorem derivable_constant
    {word : String} {value : Scalar}
    (hword : (word, value) ∈ constants) :
    (Node.mk .literal span [(.value, .scalar value)]).Derivable style level := by
  refine ⟨.constant hword, ?_⟩
  have hfacts : ∀ entry ∈ constants, entry.2.content = entry.1 ∧
      entry.2.same entry.2 = true ∧ isNameText entry.1.toList = true := by decide
  obtain ⟨hcontent, hsame, hname⟩ := hfacts _ hword
  have hstring : ∀ s, value ≠ .str s := by
    rintro s rfl
    simp [constants] at hword
  rw [Node.text_scalar hstring, hcontent]
  refine ⟨_, _, .constant hword, ?_, (spells_word hname).weaken fun _ => rfl⟩
  simpa [literalOf, Node.sameStructure, sameSlots, Slot.sameStructure] using hsame

theorem derivable_this : (Node.mk .thisExpression span []).Derivable style level := by
  have hname : isNameText "this".toList = true := by decide
  refine ⟨.this, ?_⟩
  rw [Node.text_this]
  exact ⟨_, _, .this, rfl, (spells_word hname).weaken fun _ => rfl⟩

theorem derivable_member
    {span' : Span} {object : Node} {name : String}
    (hobject : object.Derivable style level) (hname : isNameText name.toList = true) :
    (Node.mk .memberExpression span [(.object, .node object),
      (.property, .node (.identifier name span')), (.computed, .flag false),
        (.optional, .flag false)]).Derivable style level := by
  refine ⟨.member hobject.formula hname, ?_⟩
  obtain ⟨tokens, found, hderives, hsame, hspells⟩ := hobject.object
  rw [Node.goal_member, Node.text_member]
  refine ⟨_, memberOf found name, .member (chainGoal_mem _) hderives, ?_,
    (hspells.append (spells_member hname) fun _ => rfl).weaken fun _ => rfl⟩
  exact Node.sameStructure_mk (by simp)
    (by simp [Slot.sameStructure, Slot.flag, Scalar.same, hsame, sameStructure_identifier])

theorem derivable_element
    {object index : Node}
    (hobject : object.Derivable style level) (hindex : index.Derivable style level) :
    (Node.mk .memberExpression span [(.object, .node object), (.property, .node index),
      (.computed, .flag true), (.optional, .flag false)]).Derivable style level := by
  refine ⟨.element hobject.formula hindex.formula, ?_⟩
  obtain ⟨tokens, found, hderives, hsame, hspells⟩ := hobject.object
  obtain ⟨tokens', found', hderives', hsame', hspells'⟩ := hindex.expression
  have hbracketed := hspells'.bracketed (by decide : ('[', "[") ∈ brackets)
    (by decide : (']', "]") ∈ brackets)
  rw [Node.goal_member, Node.text_element, Node.operandText_sequence]
  refine ⟨_, elementOf found found', .element (chainGoal_mem _) hderives hderives', ?_,
    (hspells.append hbracketed fun _ => rfl).weaken fun _ => rfl⟩
  exact Node.sameStructure_mk (by simp)
    (by simp [Slot.sameStructure, Slot.flag, Scalar.same, hsame, hsame'])

theorem derivable_call
    {callee : Node} {args : List Node}
    (hcallee : callee.Derivable style level) (hargs : ∀ n ∈ args, n.Derivable style level) :
    (Node.mk .callExpression span [(.callee, .node callee), (.arguments, .list args),
      (.optional, .flag false)]).Derivable style level := by
  refine ⟨.call hcallee.formula fun n hn => (hargs n hn).formula, ?_⟩
  obtain ⟨tokens, found, hderives, hsame, hspells⟩ :=
    hcallee.chain (fun _ => Nat.le_refl _) (Nat.le_refl Strength.call)
  obtain ⟨parts, hparts, hspells'⟩ := exists_arguments hargs
  rw [Node.text_call]
  refine ⟨_, callOf found (parts.map Prod.snd), .call (chainGoal_mem _) hderives hparts.derives, ?_,
    (hspells.append hspells' fun _ => rfl).weaken fun _ => rfl⟩
  exact Node.sameStructure_mk (by simp)
    (by simp [Slot.sameStructure, Slot.flag, Scalar.same, hsame, hparts.same])

theorem derivable_new
    {callee : Node} {args : List Node}
    (hcallee : callee.Derivable style level) (hargs : ∀ n ∈ args, n.Derivable style level) :
    (Node.mk .newExpression span [(.callee, .node callee),
      (.arguments, .list args)]).Derivable style level := by
  refine ⟨.new hcallee.formula fun n hn => (hargs n hn).formula, ?_⟩
  obtain ⟨tokens, found, hderives, hsame, hspells⟩ := hcallee.callee
  obtain ⟨parts, hparts, hspells'⟩ := exists_arguments hargs
  have hnew : ∀ text : List Char, "new ".toList ++ text = "new".toList ++ ' ' :: text :=
    fun _ => rfl
  rw [Node.text_new, hnew]
  refine ⟨_, newOf found (parts.map Prod.snd), .construct hderives hparts.derives, ?_, ?_⟩
  · exact Node.sameStructure_mk (by simp) (by simp [Slot.sameStructure, hsame, hparts.same])
  · intro tail rest htail hrest
    have hbehind := (hspells.append hspells' fun _ => rfl) tail rest
      (isBound_mono htail fun _ => rfl) hrest
    rw [List.append_assoc]
    exact lexes_word (by decide) hbehind

/-! ### Signs -/

theorem derivable_unary_word
    {operator : String}
    (hoperator : operator ∈ unaryWords) (hn : n.Derivable style level) :
    (Node.mk .unaryExpression span [(.operator, .text operator),
      (.argument, .node n)]).Derivable style level := by
  have hfacts : ∀ word ∈ unaryWords, word.toList.all Char.isAlpha = true ∧
      (word == "+" || word == "-") = false ∧ isNameText word.toList = true ∧
        word ∈ unaryOperators ∧ Token.ofOperator word = .word word := by decide
  obtain ⟨halpha, hsign, hword, hunary, htoken⟩ := hfacts operator hoperator
  refine ⟨.unary hunary hn.formula, ?_⟩
  obtain ⟨tokens, found, hderives, hsame, hspells⟩ := hn.placed
    (by decide : (Strength.unary, Goal.unary) ∈ Node.Ranked.places)
  rw [Node.text_unary, if_pos halpha, Node.fuses, hsign]
  refine ⟨_, unaryOf operator found, .unary hunary hderives, sameStructure_unary hsame, ?_⟩
  intro tail rest htail hrest
  rw [htoken, List.append_assoc]
  exact lexes_word hword (hspells tail rest htail hrest)

theorem derivable_unary_sign
    {c : Char} {operator : String}
    (hoperator : (c, operator) ∈ unarySigns) (hn : n.Derivable style level) :
    (Node.mk .unaryExpression span [(.operator, .text operator),
      (.argument, .node n)]).Derivable style level := by
  have hfacts : ∀ sign ∈ unarySigns, sign.2.toList.all Char.isAlpha = false ∧
      sign.2.toList = [sign.1] ∧ sign.2 ∈ unaryOperators := by decide
  obtain ⟨halpha, hchars, hunary⟩ := hfacts _ hoperator
  refine ⟨.unary hunary hn.formula, ?_⟩
  obtain ⟨tokens, found, hderives, hsame, hspells⟩ := hn.placed
    (by decide : (Strength.unary, Goal.unary) ∈ Node.Ranked.places)
  have hrereads : n.Rereads style := hn.formula.plain.rereadsAs style
  obtain ⟨d, text, htext, hequal, hself⟩ := exists_signed hrereads level hoperator
  rw [Node.text_unary, halpha, hchars, if_neg Bool.false_ne_true, List.nil_append, htext]
  refine ⟨_, unaryOf operator found, .unary hunary hderives, sameStructure_unary hsame, ?_⟩
  intro tail rest htail hrest
  refine lexes_sign hoperator hequal hself ?_
  have hbehind := hspells tail rest htail hrest
  show Lexes (d :: text ++ tail) (tokens ++ rest)
  rw [← htext, List.append_assoc]
  split
  · exact .space hbehind
  · exact hbehind

/-! ### Assignments -/

/-- What is assigned to is never put in parentheses. -/
theorem operandText_target (htarget : n.isTarget = true) (hleast : least ≤ Strength.member) :
    n.operandText style level least = n.text style level := by
  have hof := Node.member_le_strength_of_isTarget htarget
  rw [Node.operandText_eq, if_neg (by omega)]

theorem Node.Derivable.target (hn : n.Derivable style level) (htarget : n.isTarget = true) :
    Stands .leftHandSide false (n.text style level) n := by
  have hplaced := hn.placed (by decide : (Strength.call, Goal.leftHandSide) ∈ Node.Ranked.places)
  rwa [operandText_target htarget (by decide)] at hplaced

theorem isTarget_of_sameStructure
    {found : Node}
    (hsame : found.sameStructure n = true) (htarget : n.isTarget = true) :
    found.isTarget = true := by
  rwa [Node.isTarget, (Node.sameStructure_iff.mp hsame).1]

theorem derivable_update_before
    {operator : String}
    (hoperator : operator ∈ ["++", "--"])
    (hn : n.Derivable style level)
    (htarget : n.isTarget = true) :
    (Node.mk .updateExpression span [(.operator, .text operator), (.argument, .node n),
      (.prefixed, .flag true)]).Derivable style level := by
  refine ⟨.update hoperator hn.formula htarget, ?_⟩
  obtain ⟨tokens, found, hderives, hsame, hspells⟩ := hn.placed
    (by decide : (Strength.unary, Goal.unary) ∈ Node.Ranked.places)
  have hrereads : n.Rereads style := hn.formula.plain.rereadsAs style
  rw [Node.text_update, if_pos rfl]
  refine ⟨_, updateOf operator true found,
    .updateBefore hoperator hderives (isTarget_of_sameStructure hsame htarget),
    sameStructure_update hsame, ?_⟩
  intro tail rest htail hrest
  rw [List.append_assoc]
  exact lexes_update hoperator
    (isFresh_update hoperator (hrereads.head_operandText level Strength.unary tail))
    (hspells tail rest htail hrest)

theorem derivable_update_behind
    {operator : String}
    (hoperator : operator ∈ ["++", "--"])
    (hn : n.Derivable style level)
    (htarget : n.isTarget = true) :
    (Node.mk .updateExpression span [(.operator, .text operator), (.argument, .node n),
      (.prefixed, .flag false)]).Derivable style level := by
  refine ⟨.update hoperator hn.formula htarget, ?_⟩
  obtain ⟨tokens, found, hderives, hsame, hspells⟩ := hn.target htarget
  rw [Node.text_update, if_neg Bool.false_ne_true, operandText_target htarget (by decide)]
  refine ⟨_, updateOf operator false found,
    .updateBehind hoperator hderives (isTarget_of_sameStructure hsame htarget),
    sameStructure_update hsame, ?_⟩
  have hbound : ∀ tail, isBound false (operator.toList ++ tail) = true := by
    intro tail
    simp only [List.mem_cons, List.not_mem_nil, or_false] at hoperator
    rcases hoperator with rfl | rfl <;> rfl
  refine hspells.append (fun tail rest htail hrest => lexes_update hoperator ?_ hrest) hbound
  refine isFresh_update hoperator fun hhead => ?_
  cases tail with
  | nil => cases hhead
  | cons c tail =>
      cases hhead
      cases htail

theorem derivable_assignment
    {operator : String} {target value : Node}
    (hoperator : operator ∈ assignmentMarks)
    (hleft : target.Derivable style level)
    (htarget : target.isTarget = true)
    (hvalue : value.Derivable style level) :
    (Node.mk .assignmentExpression span [(.operator, .text operator), (.left, .node target),
      (.right, .node value)]).Derivable style level := by
  refine ⟨.assignment hoperator hleft.formula htarget hvalue.formula, ?_⟩
  have hmark : ∀ operator ∈ assignmentMarks, Token.ofOperator operator = .mark operator := by
    decide +kernel
  have hspaced : operator ∈ spacedOperators := by simp [spacedOperators, hoperator]
  obtain ⟨tokens, found, hderives, hsame, hspells⟩ := hleft.target htarget
  obtain ⟨tokens', found', hderives', hsame', hspells'⟩ := hvalue.item
  have hspelled := spells_spaced hspaced hspells hspells'
  rw [hmark operator hoperator] at hspelled
  rw [Node.text_assignment, operandText_target htarget (by decide)]
  refine ⟨_, assignmentOf operator found found', .assignment hoperator hderives
    (isTarget_of_sameStructure hsame htarget) hderives', ?_, hspelled⟩
  exact Node.sameStructure_mk (by simp)
    (by simp [Slot.sameStructure, Slot.text, Scalar.same, hsame, hsame'])

/-! ### Operations -/

theorem derivable_binary
    {operator : String} {left right : Node}
    (hoperator : operator ∈ binaryOperators)
    (hleft : left.Derivable style level)
    (hright : right.Derivable style level) :
    (Node.mk (binaryKind operator) span [(.operator, .text operator), (.left, .node left),
      (.right, .node right)]).Derivable style level := by
  refine ⟨.binary hoperator rfl hleft.formula hright.formula, ?_⟩
  have hprimary : ∀ operator ∈ binaryOperators, (rightGoal operator).Takes .primary ∧
      ∃ goal ∈ leftGoals operator, goal.Takes .primary := by decide +kernel
  have hspaced : operator ∈ spacedOperators := by simp [spacedOperators, hoperator]
  have hkind : binaryKind operator = .binaryExpression ∨
      binaryKind operator = .logicalExpression := by
    unfold binaryKind
    split
    · exact .inr rfl
    · exact .inl rfl
  have hleftStands : ∃ goal ∈ leftGoals operator,
      Stands goal false (left.operandText style level (Node.leftLeast operator left)) left := by
    by_cases hbare : Node.leftLeast operator left ≤ Strength.of left
    · obtain ⟨goal, hgoal, htakes⟩ := (hleft.formula.ranked style).left hoperator hbare
      refine ⟨goal, hgoal, ?_⟩
      rw [Node.operandText_eq, if_neg (Nat.not_lt.mpr hbare)]
      exact (hleft.stands.widen htakes).withoutDot
    · obtain ⟨goal, hgoal, htakes⟩ := (hprimary operator hoperator).2
      exact ⟨goal, hgoal, hleft.operand htakes fun hle => absurd hle hbare⟩
  obtain ⟨goal, hgoal, tokens, found, hderives, hsame, hspells⟩ := hleftStands
  obtain ⟨tokens', found', hderives', hsame', hspells'⟩ := hright.operand
    (hprimary operator hoperator).1 ((hright.formula.ranked style).right hoperator)
  have hdot : (Node.mk (binaryKind operator) span [(.operator, .text operator),
      (.left, .node left), (.right, .node right)]).takesDot = false := by
    have hlt := binary_lt_call operator hoperator
    simp [Node.takesDot, of_binary, Nat.not_le.mpr hlt]
  rw [Node.text_binary hkind, Node.goal_binary, hdot]
  refine ⟨_, binaryOf operator found found', .operation hoperator hgoal hderives hderives', ?_,
    spells_spaced hspaced hspells hspells'⟩
  exact Node.sameStructure_mk (by simp)
    (by simp [Slot.sameStructure, Slot.text, Scalar.same, hsame, hsame'])

theorem derivable_conditional
    {test consequent alternate : Node}
    (htest : test.Derivable style level)
    (hconsequent : consequent.Derivable style level)
    (halternate : alternate.Derivable style level) :
    (Node.mk .conditionalExpression span [(.test, .node test), (.consequent, .node consequent),
      (.alternate, .node alternate)]).Derivable style level := by
  refine ⟨.conditional htest.formula hconsequent.formula halternate.formula, ?_⟩
  obtain ⟨tokens, found, hderives, hsame, hspells⟩ := htest.placed
    (by decide : (Strength.logicalOr, Goal.shortCircuit) ∈ Node.Ranked.places)
  obtain ⟨tokens', found', hderives', hsame', hspells'⟩ := hconsequent.item
  obtain ⟨tokens'', found'', hderives'', hsame'', hspells''⟩ := halternate.item
  have hquestion : "?" ∈ spacedOperators := by decide
  have hcolon : ":" ∈ spacedOperators := by decide
  rw [Node.text_conditional]
  refine ⟨_, conditionalOf found found' found'', .conditional hderives hderives' hderives'', ?_,
    spells_spaced hquestion hspells (spells_spaced hcolon hspells' hspells'')⟩
  exact Node.sameStructure_mk (by simp) (by simp [Slot.sameStructure, hsame, hsame', hsame''])

theorem derivable_sequence
    {ns : List Node}
    (hlength : 2 ≤ ns.length) (hns : ∀ n ∈ ns, n.Derivable style level) :
    (Node.mk .sequenceExpression span [(.expressions, .list ns)]).Derivable style level := by
  refine ⟨.sequence hlength fun n hn => (hns n hn).formula, ?_⟩
  obtain ⟨parts, hparts, hspells⟩ := exists_listed hns
  have hlength' : 2 ≤ parts.length := by
    have heq := (sameSequence_iff.mp hparts.same).length_eq
    rw [List.length_map] at heq
    omega
  rw [Node.text_sequence]
  refine ⟨_, sequenceOf (parts.map Prod.snd), .sequence hlength' hparts.derives, ?_, hspells⟩
  exact Node.sameStructure_mk (by simp) (by simp [Slot.sameStructure, hparts.same])

/-- The text of every expression derives. -/
theorem Node.Formula.derivable (hn : n.Formula) (style : Style) (level : Nat) :
    n.Derivable style level := by
  induction hn with
  | variableName hname hword => exact derivable_variable hname hword
  | integer hne hraw => exact derivable_integer hne hraw
  | constant hword => exact derivable_constant hword
  | this => exact derivable_this
  | member _ hname ih => exact derivable_member ih hname
  | element _ _ ih ih' => exact derivable_element ih ih'
  | call _ _ ih ih' => exact derivable_call ih ih'
  | new _ _ ih ih' => exact derivable_new ih ih'
  | unary hoperator _ ih =>
      rcases List.mem_append.mp hoperator with hword | hsign
      · exact derivable_unary_word hword ih
      · obtain ⟨sign, hmem, rfl⟩ := List.mem_map.mp hsign
        exact derivable_unary_sign hmem ih
  | @update _ _ _ prefixed hoperator _ htarget ih =>
      cases prefixed with
      | true => exact derivable_update_before hoperator ih htarget
      | false => exact derivable_update_behind hoperator ih htarget
  | binary hoperator hkind _ _ ih ih' =>
      subst hkind
      exact derivable_binary hoperator ih ih'
  | assignment hoperator _ htarget _ ih ih' => exact derivable_assignment hoperator ih htarget ih'
  | conditional _ _ _ ih ih' ih'' => exact derivable_conditional ih ih' ih''
  | sequence hlength _ ih => exact derivable_sequence hlength ih

/-! ## Statements -/

/-- Words that start statements which are not expressions. -/
def otherWords : List String := ["function", "class", "async", "let"]

theorem startsOtherwise_cons
    {t : Token}
    (hmark : t ≠ .mark "\x7b") (hword : ∀ word ∈ otherWords, t ≠ .word word)
    (tokens : List Token) :
    startsOtherwise (t :: tokens) = false := by
  simp only [otherWords, List.forall_mem_cons] at hword
  unfold startsOtherwise
  split <;> simp_all

/-- An operand starts like no other statement. -/
theorem startsOtherwise_eq_false
    {text : List Char} {tokens : List Token}
    (hopens : Grammar.Opens text) (hlexes : Lexes text (tokens ++ [.mark ";"])) :
    startsOtherwise tokens = false := by
  have hbrace : "\x7b" ∉ openingMarks := by decide
  have hother : ∀ word ∈ otherWords,
      word ≠ "" ∧ word ∉ openingWords ∧ isVariable word = false := by decide +kernel
  cases tokens with
  | nil => rfl
  | cons t tokens =>
      cases hlexes with
      | space => exact absurd hopens.fresh Bool.false_ne_true
      | token htoken =>
          refine startsOtherwise_cons ?_ ?_ tokens
          · rintro rfl
            obtain ⟨_, ⟨⟩, _⟩ | ⟨_, ⟨⟩⟩ | ⟨mark, heq, hmark⟩ := tokenAt_cases htoken
            cases heq
            have hmem := hopens.mark
            rw [markOf_eq hmark] at hmem
            exact hbrace hmem
          · rintro word hmem rfl
            obtain ⟨found, heq, hword⟩ | ⟨_, ⟨⟩⟩ | ⟨_, ⟨⟩, _⟩ := tokenAt_cases htoken
            cases heq
            have hfirst := hopens.word
            rw [wordOf_eq hword] at hfirst
            obtain ⟨hempty, hopening, hvariable⟩ := hother word hmem
            rcases hfirst with hfirst | hfirst | hfirst
            · exact hempty hfirst
            · exact hopening hfirst
            · rw [hvariable] at hfirst
              cases hfirst

/-- The text of an expression that stands as a statement derives. -/
theorem Node.Formula.exists_readsAs
    {e : Node}
    (he : e.Formula)
    (style : Style) (span : Span) :
    ∃ found, found.sameStructure e = true ∧
      ReadsAs ((Node.mk .expressionStatement span [(.expression, .node e)]).print style)
        (.mk .expressionStatement {} [(.expression, .node found)]) := by
  have hderivable := he.derivable style 0
  have hrereads : e.Rereads style := he.plain.rereadsAs style
  obtain ⟨text, htext, hform⟩ := Node.exists_statementText_expression style 0 span e
  have hstands : Grammar.Leading text ∧ Stands .expression false text e := by
    rcases hform with rfl | rfl
    · exact ⟨hrereads.leading 0, hderivable.expression⟩
    · exact ⟨(leadingPlainly_open _).toLeading,
        (hderivable.group.widen (by decide)).withoutDot⟩
  obtain ⟨hleading, tokens, found, hderives, hsame, hspells⟩ := hstands
  have hprint := Node.toList_print_statement
    (n := .mk .expressionStatement span [(.expression, .node e)]) rfl nofun nofun style
  have hlexes := hspells [';'] [.mark ";"] rfl (lexes_bracket (by decide) .nil)
  refine ⟨found, hsame, tokens, found, ?_, startsOtherwise_eq_false (hleading.opens _ rfl) hlexes,
    hderives, rfl⟩
  rwa [hprint, htext]

/-- A text is an expression statement with one tree at most. -/
theorem Ecma.ReadsAs.unique
    {source : String} {n' : Node}
    (hn : ReadsAs source n) (hn' : ReadsAs source n') :
    n = n' := by
  obtain ⟨tokens, e, hlexes, -, hderives, rfl⟩ := hn
  obtain ⟨tokens', e', hlexes', -, hderives', rfl⟩ := hn'
  obtain ⟨rfl, -⟩ := List.append_inj' (hlexes.unique hlexes') rfl
  rw [hderives.unique hderives']

/-- An expression of operators, members and calls, nested in any way and printed as a statement, is
read back by the grammar of the standard with exactly one tree, which has its structure.  The parser
of programs reads it back too. -/
theorem Node.Formula.readsAs_print_iff
    {e : Node}
    (he : e.Formula)
    (style : Style) (span : Span) :
    ∃ found : Node,
      (∀ n, Ecma.ReadsAs
        ((Node.mk .expressionStatement span [(.expression, .node e)]).print style) n ↔ n = found) ∧
      found.sameStructure (.mk .expressionStatement span [(.expression, .node e)]) = true ∧
      ∃ root,
        parse ((Node.mk .expressionStatement span [(.expression, .node e)]).print style) =
          .ok root ∧
        root.sameStructure (.mk .program span
          [(.body, .list [.mk .expressionStatement span [(.expression, .node e)]])]) = true := by
  obtain ⟨found, hsame, hreads⟩ := he.exists_readsAs style span
  refine ⟨_, fun n => ⟨fun hn => hn.unique hreads, ?_⟩, ?_,
    he.plain.parse_print_statement style span⟩
  · rintro rfl
    exact hreads
  · exact Node.sameStructure_mk (by simp) (by simp [Slot.sameStructure, hsame])

/-- A negation as the base of a power, a call as the callee of `new`, and `||` beside `??`. -/
theorem Node.Formula.readsAs_print_power :
    ∃ e : Node, e.Formula ∧
      (Node.mk .expressionStatement {} [(.expression, .node e)]).print =
        "((-a) ** new (f())().b || c) ?? d;" ∧
      ∃ found : Node,
        (∀ n, Ecma.ReadsAs "((-a) ** new (f())().b || c) ?? d;" n ↔ n = found) ∧
        found.sameStructure (.mk .expressionStatement {} [(.expression, .node e)]) = true ∧
        ∃ root,
          parse "((-a) ** new (f())().b || c) ?? d;" = .ok root ∧
          root.sameStructure (.mk .program {}
            [(.body, .list [.mk .expressionStatement {} [(.expression, .node e)]])]) = true := by
  let name (text : String) : Node := .identifier text {}
  let call : Node := .mk .callExpression {}
    [(.callee, .node (name "f")), (.arguments, .list []), (.optional, .flag false)]
  let base : Node := .mk .unaryExpression {}
    [(.operator, .text "-"), (.argument, .node (name "a"))]
  let made : Node := .mk .newExpression {} [(.callee, .node call), (.arguments, .list [])]
  let exponent : Node := .mk .memberExpression {} [(.object, .node made),
    (.property, .node (name "b")), (.computed, .flag false), (.optional, .flag false)]
  let power : Node := .mk .binaryExpression {}
    [(.operator, .text "**"), (.left, .node base), (.right, .node exponent)]
  let either : Node := .mk .logicalExpression {}
    [(.operator, .text "||"), (.left, .node power), (.right, .node (name "c"))]
  let whole : Node := .mk .logicalExpression {}
    [(.operator, .text "??"), (.left, .node either), (.right, .node (name "d"))]
  have hname : ∀ text ∈ ["a", "c", "d", "f"], (name text).Formula := by
    intro text htext
    have hall : ∀ text ∈ ["a", "c", "d", "f"], isVariable text = true ∧ text ∉ reserved := by
      decide +kernel
    exact .variableName (hall text htext).1 (hall text htext).2
  have hcall : call.Formula := .call (hname "f" (by decide)) (by simp)
  have hexponent : exponent.Formula := .member (.new hcall (by simp)) (by decide)
  have hbase : base.Formula := .unary (by decide) (hname "a" (by decide))
  have hpower : power.Formula := .binary (by decide) rfl hbase hexponent
  have heither : either.Formula := .binary (by decide) rfl hpower (hname "c" (by decide))
  have hwhole : whole.Formula := .binary (by decide) rfl heither (hname "d" (by decide))
  have hprint : (Node.mk .expressionStatement {} [(.expression, .node whole)]).print =
      "((-a) ** new (f())().b || c) ?? d;" := by decide +kernel
  have hread := hwhole.readsAs_print_iff {} {}
  rw [hprint] at hread
  exact ⟨whole, hwhole, hprint, hread⟩

end Graft
