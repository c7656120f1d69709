import Graft.Proofs.Ecma.Grammar
import Graft.Proofs.Reprint.Expressions

/-!
# Texts and their tokens

What the pieces of a printed expression are as tokens, in front of what the printer puts behind
them.
-/

namespace Graft.Ecma

open Grammar

variable {text text' tail : List Char} {tokens tokens' : List Token} {dot : Bool}

/-! ## One token -/

theorem tokenAt_word
    {word : String}
    (hword : isNameText word.toList = true) (htail : endsName tail = true) :
    tokenAt (word.toList ++ tail) = some (.word word, tail) := by
  simp [tokenAt, isFresh_of_isNameText hword, wordAt_append hword htail, hword]

theorem tokenAt_digits
    {raw : String}
    (hne : raw.toList ≠ [])
    (hraw : raw.toList.all Char.isDigit = true)
    (htail : endsName tail = true)
    (hdot : tail.head? ≠ some '.') :
    tokenAt (raw.toList ++ tail) = some (.number raw, tail) := by
  have hnumber := numberLength?_append hne hraw htail hdot
  obtain ⟨c, digits, hdigits⟩ := List.exists_cons_of_ne_nil hne
  have hc : c.isDigit = true := by
    rw [hdigits, List.all_cons, Bool.and_eq_true] at hraw
    exact hraw.1
  have hfresh : isFresh (raw.toList ++ tail) = true := by
    rw [hdigits]
    exact isFresh_of_isNameChar (isNameChar_of_isDigit hc)
  have hword : wordAt (raw.toList ++ tail) = none := by
    rw [hdigits]
    exact wordAt_of_isDigit hc
  simp [tokenAt, hfresh, hword, hnumber, htail]

theorem numberLength?_eq_none
    {c : Char} {rest : List Char}
    (hdigit : c.isDigit = false) (hdot : c ≠ '.') :
    numberLength? (c :: rest) = none := by
  have hzero : c ≠ '0' := by
    rintro rfl
    exact absurd hdigit (by decide)
  have hdecimal : decimalLength? (c :: rest) = none := by
    simp only [decimalLength?, digitsLength, hdigit]
    split <;> simp_all
  unfold numberLength?
  split <;> simp_all

/-- A punctuator, as the parser of programs sees it too. -/
theorem tokenAt_mark
    {c : Char} {rest after : List Char} {mark : String}
    (hfresh : isFresh (c :: rest) = true)
    (hc : isNameChar c = false ∧ c ≠ '\\')
    (hnumber : numberLength? (c :: rest) = none)
    (hmark : markAt (c :: rest) = some (mark, after)) :
    tokenAt (c :: rest) = some (.mark mark, after) := by
  simp [tokenAt, hfresh, wordAt_of_stop hfresh hc.1 hc.2, hnumber, hmark]

/-- A token is the word, the number or the punctuator that the parser of programs sees. -/
theorem tokenAt_cases
    {rest : List Char} {t : Token}
    (htoken : tokenAt text = some (t, rest)) :
    (∃ word, t = .word word ∧ wordAt text = some (word, rest)) ∨ (∃ raw, t = .number raw) ∨
      ∃ mark, t = .mark mark ∧ markAt text = some (mark, rest) := by
  unfold tokenAt at htoken
  split at htoken
  case isTrue =>
    split at htoken
    next word after hword =>
      rw [Option.ite_none_right_eq_some] at htoken
      cases htoken.2
      exact .inl ⟨word, rfl, hword⟩
    next =>
      split at htoken
      next =>
        rw [Option.ite_none_right_eq_some] at htoken
        cases htoken.2
        exact .inr (.inl ⟨_, rfl⟩)
      next =>
        rw [Option.map_eq_some_iff] at htoken
        obtain ⟨⟨mark, after⟩, hmark, hfound⟩ := htoken
        cases hfound
        exact .inr (.inr ⟨mark, rfl, hmark⟩)
  case isFalse => cases htoken

/-! ## Pieces of text -/

/-- What the printer puts behind an operand. -/
def isBound (dot : Bool) (tail : List Char) : Bool :=
  tail.head?.all fun c => " )],;([+-".toList.contains c || (dot && c == '.')

/-- The text stands for the tokens, whatever the printer puts behind it. -/
def Spells (text : List Char) (dot : Bool) (tokens : List Token) : Prop :=
  ∀ tail rest, isBound dot tail = true → Lexes tail rest → Lexes (text ++ tail) (tokens ++ rest)

theorem isBound_mono
    {dot' : Bool}
    (htail : isBound dot' tail = true) (hdot : dot' = true → dot = true) :
    isBound dot tail = true := by
  cases tail with
  | nil => rfl
  | cons c rest =>
      simp only [isBound, List.head?_cons, Option.all_some, Bool.or_eq_true,
        Bool.and_eq_true] at htail ⊢
      exact htail.imp_right fun hc => ⟨hdot hc.1, hc.2⟩

theorem Spells.weaken
    {dot' : Bool}
    (htext : Spells text dot tokens) (hdot : dot' = true → dot = true) :
    Spells text dot' tokens :=
  fun tail rest htail => htext tail rest (isBound_mono htail hdot)

theorem endsName_of_isBound (htail : isBound dot tail = true) :
    endsName tail = true := by
  have hall : ('.' :: " )],;([+-".toList).all (fun c => !isNameChar c && c != '\\') = true := by
    decide +kernel
  have hbound : isBound true tail = true := isBound_mono htail fun _ => rfl
  cases tail with
  | nil => rfl
  | cons c rest =>
      have hc : c ∈ '.' :: " )],;([+-".toList := by
        simpa [isBound, or_comm] using hbound
      simpa [endsName] using List.all_eq_true.mp hall c hc

theorem spells_word {word : String} (hword : isNameText word.toList = true) :
    Spells word.toList true [.word word] :=
  fun _ _ htail hrest => .token (tokenAt_word hword (endsName_of_isBound htail)) hrest

theorem spells_digits
    {raw : String}
    (hne : raw.toList ≠ []) (hraw : raw.toList.all Char.isDigit = true) :
    Spells raw.toList false [.number raw] := by
  intro tail rest htail hrest
  have hdot : tail.head? ≠ some '.' := by
    intro hhead
    cases tail with
    | nil => cases hhead
    | cons c tail =>
        cases hhead
        have hbound : isBound false ('.' :: tail) = false := rfl
        rw [hbound] at htail
        cases htail
  exact .token (tokenAt_digits hne hraw (endsName_of_isBound htail) hdot) hrest

/-- Punctuators of one character that nothing extends. -/
def brackets : List (Char × String) :=
  [('(', "("), (')', ")"), ('[', "["), (']', "]"), (',', ","), (';', ";")]

theorem lexes_bracket
    {c : Char} {mark : String}
    (hmark : (c, mark) ∈ brackets) (hrest : Lexes text tokens) :
    Lexes (c :: text) (.mark mark :: tokens) := by
  have hchars : ∀ entry ∈ brackets, (isNameChar entry.1 = false ∧ entry.1 ≠ '\\') ∧
      entry.1.isDigit = false ∧ entry.1 ≠ '.' := by decide +kernel
  have hmarks : ∀ entry ∈ brackets,
      isFresh (entry.1 :: text) = true ∧ markAt (entry.1 :: text) = some (entry.2, text) := by
    simp only [brackets, List.forall_mem_cons]
    and_intros
    all_goals first
      | rfl
      | exact markAt_open text
      | exact markAt_bracket text
      | exact markAt_closer (by decide) text
      | simp
  obtain ⟨hc, hdigit, hdot⟩ := hchars _ hmark
  obtain ⟨hfresh, hfound⟩ := hmarks _ hmark
  exact .token (tokenAt_mark hfresh hc (numberLength?_eq_none hdigit hdot) hfound) hrest

theorem Spells.append
    {dot' : Bool}
    (htext : Spells text dot tokens)
    (htext' : Spells text' dot' tokens')
    (hbound : ∀ tail, isBound dot (text' ++ tail) = true) :
    Spells (text ++ text') dot' (tokens ++ tokens') := by
  intro tail rest htail hrest
  rw [List.append_assoc, List.append_assoc]
  exact htext _ _ (hbound tail) (htext' tail rest htail hrest)

/-- A text between brackets. -/
theorem Spells.bracketed
    {opening closing : Char} {mark mark' : String}
    (htext : Spells text dot tokens)
    (hopening : (opening, mark) ∈ brackets)
    (hclosing : (closing, mark') ∈ brackets) :
    Spells (opening :: (text ++ [closing])) true (.mark mark :: (tokens ++ [.mark mark'])) := by
  intro tail rest _ hrest
  have hbound : ∀ entry ∈ brackets, isBound dot (entry.1 :: tail) = true := by
    simp only [brackets, List.forall_mem_cons]
    and_intros
    all_goals first | rfl | simp
  rw [List.cons_append, List.cons_append, List.append_assoc, List.append_assoc]
  exact lexes_bracket hopening
    (htext _ _ (hbound _ hclosing) (lexes_bracket hclosing hrest))

/-- A word with a blank behind it. -/
theorem lexes_word
    {word : String}
    (hword : isNameText word.toList = true) (hrest : Lexes text tokens) :
    Lexes (word.toList ++ ' ' :: text) (.word word :: tokens) :=
  .token (tokenAt_word hword rfl) (.space hrest)

/-- The operators with blanks around them. -/
def spacedOperators : List String := "?" :: ":" :: (binaryOperators ++ assignmentMarks)

theorem spacedOperators_facts :
    ∀ operator ∈ spacedOperators,
      isNameText operator.toList = true ∨ operator ∈ punctuators ∧
        isNameText operator.toList = false ∧ operator.toList.head?.any (fun c =>
          !isNameChar c && c != '\\' && !c.isDigit && c != '.') = true := by
  decide +kernel

theorem lexes_spaced
    {operator : String}
    (hoperator : operator ∈ spacedOperators) (hrest : Lexes text tokens) :
    Lexes (' ' :: (operator.toList ++ ' ' :: text)) (.ofOperator operator :: tokens) := by
  refine .space ?_
  rcases spacedOperators_facts operator hoperator with hword | ⟨hmark, hword, hhead⟩
  · rw [Token.ofOperator, if_pos hword]
    exact lexes_word hword hrest
  · rw [Token.ofOperator, if_neg (by simp [hword])]
    obtain ⟨hfresh, -⟩ := spaced_mark operator hmark text
    have hfound := markAt_spaced hmark text
    cases hchars : operator.toList with
    | nil =>
        rw [hchars] at hhead
        cases hhead
    | cons c cs =>
        simp only [hchars, List.head?_cons, Option.any_some, Bool.and_eq_true, Bool.not_eq_true',
          bne_iff_ne, ne_eq] at hhead
        obtain ⟨⟨⟨hc, hescape⟩, hdigit⟩, hdot⟩ := hhead
        rw [hchars] at hfresh hfound
        exact .token (tokenAt_mark hfresh ⟨hc, hescape⟩ (numberLength?_eq_none hdigit hdot) hfound)
          (.space hrest)

/-- A member behind its object. -/
theorem spells_member {name : String} (hname : isNameText name.toList = true) :
    Spells ('.' :: name.toList) true [.mark ".", .word name] := by
  intro tail rest htail hrest
  have hword := tokenAt_word hname (endsName_of_isBound htail)
  refine .token ?_ (.token hword hrest)
  refine tokenAt_mark rfl (by decide) ?_ (markAt_member hname tail)
  cases hchars : name.toList with
  | nil => simp [hchars, isNameText] at hname
  | cons c chars =>
      simp only [hchars, isNameText, Bool.and_eq_true, Bool.not_eq_true'] at hname
      simp [numberLength?, decimalLength?, digitsLength, hname.1.1]

/-- A sign in front of something that it does not fuse with. -/
theorem lexes_sign
    {c d : Char} {operator : String}
    (hoperator : (c, operator) ∈ unarySigns)
    (hequal : d ≠ '=')
    (hself : c = '+' ∨ c = '-' → d ≠ c)
    (hrest : Lexes (d :: text) tokens) :
    Lexes (c :: d :: text) (.ofOperator operator :: tokens) := by
  obtain ⟨hfresh, hfound, hc, hescape, hlength, -⟩ := sign_facts _ hoperator d text hequal hself
  have hmark : markAt (c :: d :: text) = some (operator, d :: text) := by
    rw [markAt_of_isFresh hfresh, hfound, Option.map_some, hlength]
    rfl
  have hfacts : ∀ sign ∈ unarySigns, Token.ofOperator sign.2 = .mark sign.2 ∧
      sign.1.isDigit = false ∧ sign.1 ≠ '.' := by decide +kernel
  obtain ⟨hsign, hdigit, hdot⟩ := hfacts _ hoperator
  rw [hsign]
  exact .token (tokenAt_mark hfresh ⟨hc, hescape⟩ (numberLength?_eq_none hdigit hdot) hmark) hrest

theorem lexes_update
    {operator : String}
    (hoperator : operator ∈ ["++", "--"])
    (hfresh : isFresh (operator.toList ++ text) = true)
    (hrest : Lexes text tokens) :
    Lexes (operator.toList ++ text) (.mark operator :: tokens) := by
  have hmark := markAt_update hoperator text
  refine .token ?_ hrest
  simp only [List.mem_cons, List.not_mem_nil, or_false] at hoperator
  rcases hoperator with rfl | rfl
  · exact tokenAt_mark hfresh (by decide) (numberLength?_eq_none (by decide) (by decide)) hmark
  · exact tokenAt_mark hfresh (by decide) (numberLength?_eq_none (by decide) (by decide)) hmark

end Graft.Ecma
