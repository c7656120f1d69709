import Graft.Proofs.Reprint.Operation

/-!
# How the text of an operand starts

What the first token of an operand shows to the parser, whatever stands behind the operand.  Only
the first token of the leftmost part counts, so these facts carry over from a part to the whole.
-/

namespace Graft.Grammar

open Text

/-- The words that an operand may start with besides names of variables. -/
def openingWords : List String :=
  ["delete", "false", "new", "null", "this", "true", "typeof", "void"]

/-- The punctuators that an operand may start with; a word, a number or a string shows none. -/
def openingMarks : List String := ["", "(", "[", "!", "~", "+", "-", "++", "--"]

def isOpeningChar (c : Char) : Bool := isNameChar c || "([\"'!~+-".toList.contains c

/-- An operand starts here. -/
structure Opens (text : List Char) : Prop where
  fresh : isFresh text = true
  head : ∃ c rest, text = c :: rest ∧ isOpeningChar c = true
  mark : markOf text ∈ openingMarks
  word : wordOf text = "" ∨ wordOf text ∈ openingWords ∨ isVariable (wordOf text) = true

/-- The first word is no label. -/
def NoLabel (text : List Char) : Prop :=
  ∀ word after, wordAt text = some (word, after) → markOf after ≠ ":"

/-- The text of an operand, as its start shows. -/
structure Leading (text : List Char) : Prop where
  opens : ∀ tail, endsName tail = true → Opens (text ++ tail)
  noLabel : ∀ tail, endsName tail = true → markOf tail ≠ ":" → NoLabel (text ++ tail)

/-- The text of an operand that no sign stands in front of. -/
structure LeadingPlainly (text : List Char) : Prop extends Leading text where
  plainly : ∀ tail, endsName tail = true → OpensPlainly (text ++ tail)

variable {text part : List Char}

theorem Leading.markOf_ne
    (htext : Leading text)
    {tail : List Char}
    (htail : endsName tail = true)
    {mark : String}
    (hmark : mark ∉ openingMarks) :
    markOf (text ++ tail) ≠ mark := by
  rintro rfl
  exact hmark (htext.opens tail htail).mark

theorem Leading.append
    (htext : Leading text)
    (hends : ∀ tail, endsName (part ++ tail) = true)
    (hcolon : ∀ tail, endsName tail = true → markOf (part ++ tail) ≠ ":") :
    Leading (text ++ part) where
  opens tail _ := by
    rw [List.append_assoc]
    exact htext.opens _ (hends tail)
  noLabel tail htail _ := by
    rw [List.append_assoc]
    exact htext.noLabel _ (hends tail) (hcolon tail htail)

theorem LeadingPlainly.append
    (htext : LeadingPlainly text)
    (hends : ∀ tail, endsName (part ++ tail) = true)
    (hcolon : ∀ tail, endsName tail = true → markOf (part ++ tail) ≠ ":") :
    LeadingPlainly (text ++ part) where
  toLeading := htext.toLeading.append hends hcolon
  plainly tail _ := by
    rw [List.append_assoc]
    exact htext.plainly _ (hends tail)

/-! ## The first tokens -/

theorem isOpeningChar_of_isNameChar {c : Char} (hc : isNameChar c = true) :
    isOpeningChar c = true := by
  simp [isOpeningChar, hc]

theorem opens_word
    {word : String} {tail : List Char}
    (hname : isNameText word.toList = true)
    (hword : word ∈ openingWords ∨ isVariable word = true)
    (htail : endsName tail = true) :
    Opens (word.toList ++ tail) where
  fresh := isFresh_of_isNameText hname
  head := by
    cases hchars : word.toList with
    | nil => simp [hchars, isNameText] at hname
    | cons c rest =>
        rw [hchars, isNameText, Bool.and_eq_true, Bool.and_eq_true] at hname
        exact ⟨c, rest ++ tail, rfl, isOpeningChar_of_isNameChar hname.1.2⟩
  mark := by
    rw [markOf, markAt_of_isNameText hname]
    decide
  word := by
    rw [wordOf_eq (wordAt_append hname htail)]
    exact .inr hword

theorem leading_word
    {word : String}
    (hname : isNameText word.toList = true) (hword : word ∈ openingWords ∨ isVariable word = true) :
    Leading word.toList where
  opens tail htail := opens_word hname hword htail
  noLabel tail htail hcolon found after hfound := by
    rw [wordAt_append hname htail] at hfound
    cases hfound
    exact hcolon

theorem leadingPlainly_word
    {word : String}
    (hname : isNameText word.toList = true)
    (hword : word ∈ openingWords ∨ isVariable word = true)
    (hplain : word ∉ ["typeof", "void", "delete", "await", "yield"]) :
    LeadingPlainly word.toList where
  toLeading := leading_word hname hword
  plainly tail htail := by
    refine ⟨isFresh_of_isNameText hname, ?_, ?_⟩
    · rwa [wordOf_eq (wordAt_append hname htail)]
    · rw [markOf, markAt_of_isNameText hname]
      decide

/-- A text that starts with neither a word nor a sign. -/
theorem leadingPlainly_of_mark
    {c : Char}
    (mark : String)
    (hfacts : ∀ rest, isFresh (c :: rest) = true ∧ wordAt (c :: rest) = none ∧
      markOf (c :: rest) = mark)
    (hc : isOpeningChar c = true)
    (hmark : mark ∈ ["", "(", "["])
    (rest : List Char) :
    LeadingPlainly (c :: rest) := by
  have hlist : mark ∈ openingMarks ∧ mark ∉ ["!", "~", "+", "-", "++", "--"] := by
    have hall : ∀ mark ∈ ["", "(", "["],
        mark ∈ openingMarks ∧ mark ∉ ["!", "~", "+", "-", "++", "--"] := by decide
    exact hall mark hmark
  have hword : ∀ more, wordOf (c :: more) = "" := by
    intro more
    rw [wordOf, (hfacts more).2.1]
    rfl
  refine ⟨⟨fun tail _ => ?_, fun tail _ _ => ?_⟩, fun tail _ => ?_⟩
  · refine ⟨(hfacts _).1, ⟨c, rest ++ tail, rfl, hc⟩, ?_, .inl (hword _)⟩
    rw [List.cons_append, (hfacts _).2.2]
    exact hlist.1
  · intro word after hfound
    rw [List.cons_append, (hfacts _).2.1] at hfound
    cases hfound
  · refine ⟨(hfacts _).1, ?_, ?_⟩
    · rw [List.cons_append, hword]
      decide
    · rw [List.cons_append, (hfacts _).2.2]
      exact hlist.2

theorem leadingPlainly_open (rest : List Char) : LeadingPlainly ('(' :: rest) :=
  leadingPlainly_of_mark "(" (fun more => ⟨rfl, wordAt_of_stop rfl (by decide) (by decide),
    markOf_eq (markAt_open more)⟩) (by decide) (by decide) rest

theorem leadingPlainly_bracket (rest : List Char) : LeadingPlainly ('[' :: rest) :=
  leadingPlainly_of_mark "[" (fun more => ⟨rfl, wordAt_of_stop rfl (by decide) (by decide),
    markOf_eq (markAt_bracket more)⟩) (by decide) (by decide) rest

theorem leadingPlainly_digit {c : Char} (hc : c.isDigit = true) (rest : List Char) :
    LeadingPlainly (c :: rest) := by
  have hname : isNameChar c = true := isNameChar_of_isDigit hc
  refine leadingPlainly_of_mark "" (fun more => ?_) (isOpeningChar_of_isNameChar hname)
    (by decide) rest
  refine ⟨isFresh_of_isNameChar hname, wordAt_of_isDigit hc, ?_⟩
  rw [markOf, markAt_of_isNameChar hname]
  rfl

theorem leadingPlainly_quote (quotes : QuoteStyle) (rest : List Char) :
    LeadingPlainly (quotes.char :: rest) := by
  refine leadingPlainly_of_mark "" (fun more => ?_) (by cases quotes <;> decide)
    (by decide) rest
  have hfresh : isFresh (quotes.char :: more) = true := by cases quotes <;> rfl
  refine ⟨hfresh, wordAt_of_stop hfresh (by cases quotes <;> decide)
    (by cases quotes <;> decide), ?_⟩
  rw [markOf, markAt_of_isFresh hfresh]
  cases quotes <;> rfl

/-- A text that starts with a sign. -/
theorem leading_of_sign
    {c : Char} {mark : String} {rest : List Char}
    (hfresh : ∀ tail, isFresh (c :: (rest ++ tail)) = true)
    (hmark : ∀ tail, markOf (c :: (rest ++ tail)) = mark)
    (hc : isOpeningChar c = true ∧ isNameChar c = false ∧ c ≠ '\\')
    (hopening : mark ∈ openingMarks) :
    Leading (c :: rest) := by
  have hword : ∀ tail, wordAt (c :: (rest ++ tail)) = none :=
    fun tail => wordAt_of_stop (hfresh tail) hc.2.1 hc.2.2
  refine ⟨fun tail _ => ?_, fun tail _ _ => ?_⟩
  · refine ⟨hfresh tail, ⟨c, rest ++ tail, rfl, hc.1⟩, ?_, .inl ?_⟩
    · rw [List.cons_append, hmark]
      exact hopening
    · rw [List.cons_append, wordOf, hword]
      rfl
  · intro word after hfound
    rw [List.cons_append, hword] at hfound
    cases hfound

end Graft.Grammar
