import Graft.Proofs.Reprint.Tokens

/-!
# What may follow an operand

The operand that has been read last is complete in front of a text when the next token neither
extends it nor makes it an operand of something that binds tightly enough.
-/

namespace Graft.Grammar

open Text

/-- Words that are not reserved but have a meaning of their own in some places. -/
def contextualWords : List String :=
  ["async", "await", "get", "let", "of", "set", "static", "using", "yield"]

/-- The name of a variable is neither a reserved nor a contextual word. -/
def isVariable (name : String) : Bool :=
  isNameText name.toList && !isReserved name && !contextualWords.contains name

/-- The next operator, a punctuator or a word, and the text behind it. -/
def operatorAt (text : List Char) : Option (String × List Char) :=
  match markAt text with
  | some found => some found
  | none => wordAt text

/-- A name or a group is complete in front of the text. -/
structure Follows (tail : List Char) : Prop where
  ends : endsName tail = true
  noArrow : markOf tail ≠ "=>"

/-- Punctuators that extend an operand. -/
def suffixMarks : List String := [".", "?.", "[", "\x60", "(", "++", "--"]

/-- An operation of at least the given strength is complete in front of the text. -/
structure Stops (least : Nat) (tail : List Char) : Prop extends Follows tail where
  noDot : tail.head? ≠ some '.'
  noSuffix : markOf tail ∉ suffixMarks
  noAssignment : markOf tail ∉ assignmentMarks
  noOperator : ∀ operator after strength, operatorAt tail = some (operator, after) →
    binaryStrength? operator = some strength → strength < least
  noTest : markOf tail = "?" → conditionalStrength < least

theorem Stops.mono
    {least least' : Nat} {tail : List Char}
    (htail : Stops least tail) (hle : least ≤ least') :
    Stops least' tail where
  toFollows := htail.toFollows
  noDot := htail.noDot
  noSuffix := htail.noSuffix
  noAssignment := htail.noAssignment
  noOperator operator after strength hfound hstrength :=
    Nat.lt_of_lt_of_le (htail.noOperator operator after strength hfound hstrength) hle
  noTest hmark := Nat.lt_of_lt_of_le (htail.noTest hmark) hle

theorem conditionalStrength_le
    {operator : String} {strength : Nat}
    (hstrength : binaryStrength? operator = some strength) :
    conditionalStrength ≤ strength := by
  unfold binaryStrength? at hstrength
  split at hstrength
  all_goals first | (cases hstrength; decide) | cases hstrength

/-- Nothing is weaker than a conditional. -/
theorem Stops.zero {tail : List Char} (htail : Stops conditionalStrength tail) : Stops 0 tail where
  toFollows := htail.toFollows
  noDot := htail.noDot
  noSuffix := htail.noSuffix
  noAssignment := htail.noAssignment
  noOperator operator after strength hfound hstrength := by
    have hlt := htail.noOperator operator after strength hfound hstrength
    have hle := conditionalStrength_le hstrength
    omega
  noTest hmark := absurd (htail.noTest hmark) (Nat.lt_irrefl _)

/-- The punctuator ends an operation of at least the given strength. -/
def markStops (least : Nat) (mark : String) : Bool :=
  mark != "=>" && !suffixMarks.contains mark && !assignmentMarks.contains mark &&
    (binaryStrength? mark).all (fun strength => strength < least) &&
    (mark != "?" || conditionalStrength < least)

theorem markOf_eq
    {text after : List Char} {mark : String}
    (hmark : markAt text = some (mark, after)) :
    markOf text = mark := by
  simp [markOf, hmark]

theorem wordOf_eq
    {text after : List Char} {word : String}
    (hword : wordAt text = some (word, after)) :
    wordOf text = word := by
  simp [wordOf, hword]

theorem Stops.of_mark
    {least : Nat} {tail after : List Char} {mark : String}
    (hmark : markAt tail = some (mark, after))
    (hends : endsName tail = true)
    (hdot : tail.head? ≠ some '.')
    (hstops : markStops least mark = true) :
    Stops least tail := by
  simp only [markStops, Bool.and_eq_true, Bool.or_eq_true, bne_iff_ne, ne_eq, Bool.not_eq_true',
    List.contains_eq_mem, decide_eq_false_iff_not, decide_eq_true_eq] at hstops
  obtain ⟨⟨⟨⟨harrow, hsuffix⟩, hassignment⟩, hstrength⟩, htest⟩ := hstops
  have hmarkOf : markOf tail = mark := markOf_eq hmark
  refine ⟨⟨hends, hmarkOf ▸ harrow⟩, hdot, hmarkOf ▸ hsuffix, hmarkOf ▸ hassignment, ?_, ?_⟩
  · intro operator after' strength hfound hoperator
    rw [operatorAt, hmark] at hfound
    cases hfound
    simpa [hoperator] using hstrength
  · intro hquestion
    rcases htest with hne | hlt
    · exact absurd (hmarkOf ▸ hquestion) hne
    · exact hlt

/-! ## The texts that follow operands -/

/-- Punctuators of one character that close what they stand behind. -/
def closers : List (Char × String) :=
  [(')', ")"), (']', "]"), ('\x7d', "\x7d"), (',', ","), (';', ";"), (':', ":")]

theorem closer_facts :
    ∀ entry ∈ closers, ∀ rest : List Char,
      isFresh (entry.1 :: rest) = true ∧ punctuator? (entry.1 :: rest) = some entry.2 ∧
        entry.2.length = 1 ∧ endsName (entry.1 :: rest) = true ∧ entry.1 ≠ '.' ∧
          ∀ least, markStops least entry.2 = true := by
  simp only [closers, List.forall_mem_cons]
  and_intros
  all_goals first | exact fun rest => ⟨rfl, rfl, rfl, rfl, by decide, fun least => rfl⟩ | simp

theorem markAt_closer
    {c : Char} {mark : String}
    (hcloser : (c, mark) ∈ closers)
    (rest : List Char) :
    markAt (c :: rest) = some (mark, rest) := by
  obtain ⟨hfresh, hfound, hlength, -⟩ := closer_facts _ hcloser rest
  rw [markAt_of_isFresh hfresh, hfound, Option.map_some, hlength]
  rfl

theorem Stops.closer
    {c : Char} {mark : String}
    (hcloser : (c, mark) ∈ closers)
    (least : Nat) (rest : List Char) :
    Stops least (c :: rest) := by
  obtain ⟨-, -, -, hends, hdot, hstops⟩ := closer_facts _ hcloser rest
  exact .of_mark (markAt_closer hcloser rest) hends (by simpa using hdot) (hstops least)

theorem Stops.spaced
    {least : Nat} {mark : String}
    (hmark : mark ∈ punctuators) (hstops : markStops least mark = true)
    (rest : List Char) :
    Stops least (' ' :: (mark.toList ++ ' ' :: rest)) := by
  have hfound : markAt (' ' :: (mark.toList ++ ' ' :: rest)) = some (mark, ' ' :: rest) := by
    rw [markAt_space, markAt_spaced hmark]
  exact .of_mark hfound rfl (by simp) hstops

/-- The operators between two operands. -/
def binaryOperators : List String :=
  ["??", "||", "&&", "|", "^", "&", "==", "!=", "===", "!==", "<", ">", "<=", ">=", "in",
    "instanceof", "<<", ">>", ">>>", "+", "-", "*", "/", "%", "**"]

theorem binaryOperators_facts :
    ∀ operator ∈ binaryOperators,
      (operator ∈ punctuators ∨ isNameText operator.toList = true) ∧
        operator ∉ ["=>", "?", ":"] ∧ operator ∉ suffixMarks ∧ operator ∉ assignmentMarks := by
  decide +kernel

theorem markAt_of_isNameText {name tail : List Char} (hname : isNameText name = true) :
    markAt (name ++ tail) = none := by
  cases name with
  | nil => simp [isNameText] at hname
  | cons c rest =>
      simp only [isNameText, Bool.and_eq_true] at hname
      exact markAt_of_isNameChar hname.1.2

theorem operatorAt_spaced
    {operator : String}
    (hoperator : operator ∈ binaryOperators)
    (rest : List Char) :
    operatorAt (' ' :: (operator.toList ++ ' ' :: rest)) = some (operator, ' ' :: rest) := by
  rw [operatorAt, markAt_space, wordAt_space]
  rcases (binaryOperators_facts operator hoperator).1 with hmark | hname
  · rw [markAt_spaced hmark]
  · rw [markAt_of_isNameText hname]
    exact wordAt_append hname rfl

/-- A word between two operands shows no punctuator. -/
theorem markOf_binary
    {operator : String}
    (hoperator : operator ∈ binaryOperators)
    (rest : List Char) :
    markOf (' ' :: (operator.toList ++ ' ' :: rest)) = operator ∨
      markOf (' ' :: (operator.toList ++ ' ' :: rest)) = "" := by
  rw [markOf_space, markOf]
  rcases (binaryOperators_facts operator hoperator).1 with hmark | hname
  · rw [markAt_spaced hmark]
    exact .inl rfl
  · rw [markAt_of_isNameText hname]
    exact .inr rfl

theorem markOf_binary_notMem
    {operator : String}
    (hoperator : operator ∈ binaryOperators)
    (rest : List Char)
    {marks : List String}
    (hmarks : operator ∉ marks) (hempty : "" ∉ marks) :
    markOf (' ' :: (operator.toList ++ ' ' :: rest)) ∉ marks := by
  rcases markOf_binary hoperator rest with hmark | hmark
  · rwa [hmark]
  · rwa [hmark]

theorem Stops.binary
    {least strength : Nat} {operator : String}
    (hoperator : operator ∈ binaryOperators)
    (hstrength : binaryStrength? operator = some strength)
    (hlt : strength < least)
    (rest : List Char) :
    Stops least (' ' :: (operator.toList ++ ' ' :: rest)) := by
  obtain ⟨-, hothers, hsuffix, hassignment⟩ := binaryOperators_facts operator hoperator
  have hmark := markOf_binary_notMem hoperator rest hothers (by decide)
  simp only [List.mem_cons, not_or] at hmark
  refine ⟨⟨rfl, hmark.1⟩, by simp, markOf_binary_notMem hoperator rest hsuffix (by decide),
    markOf_binary_notMem hoperator rest hassignment (by decide), ?_, ?_⟩
  · intro found after strength' hfound hstrength'
    rw [operatorAt_spaced hoperator] at hfound
    cases hfound
    rw [hstrength] at hstrength'
    cases hstrength'
    exact hlt
  · intro hquestion
    exact absurd hquestion hmark.2.1

/-! ## Line ends -/

/-- No semicolon is understood in front of a character that is neither blank nor a slash or a
closing brace. -/
theorem Cursor.automaticEnd?_eq_none
    {cur : Cursor} {c : Char} {rest : List Char}
    (hcur : cur.rest = c :: rest)
    (hblank : isBlank c = false)
    (hslash : c ≠ '/')
    (hbrace : c ≠ '\x7d')
    (hplain : isPlainBlank c = false)
    (hline : isLineEnd c = false)
    (afterOperand : Bool) :
    cur.automaticEnd? afterOperand = none := by
  have hcomment : commentLength? (c :: rest) = none := by
    unfold commentLength?
    split <;> simp_all
  simp [automaticEnd?, findEnd, endsBefore, hcur, hslash, hbrace, hline, hplain, hblank, hcomment]

end Graft.Grammar
