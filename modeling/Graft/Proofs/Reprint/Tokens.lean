import Graft.Grammar.Expression

/-!
# The tokens of a text

What a cursor sees next depends on the text behind it and not on its place.  The word and the
punctuator at the front of a text are given here together with the text that follows them.
-/

namespace Graft.Grammar

open Text

/-! ## Places do not matter -/

inductive TriviaMode.Agrees : TriviaMode → TriviaMode → Prop
  | blanks : Agrees .blanks .blanks
  | lineComment : Agrees .lineComment .lineComment
  | blockComment {opened opened' : Cursor} (hrest : opened.rest = opened'.rest) :
      Agrees (.blockComment opened) (.blockComment opened')

theorem skipFrom_blanks_cons
    (markup : Bool) (place : Place) (c : Char) (rest : List Char) :
    skipFrom markup .blanks place (c :: rest) =
      if isBlank c then skipFrom markup .blanks (place.after c) rest
      else if startsWith (c :: rest) "//" then skipFrom markup .lineComment (place.after c) rest
      else if startsWith (c :: rest) "/*" then
        match rest with
  | star :: inner =>
          skipFrom markup (.blockComment ⟨place, c :: rest⟩) ((place.after c).after star) inner
        | [] => ⟨place, c :: rest⟩
      else if markup && (startsWith (c :: rest) "<!--" || startsWith (c :: rest) "-->") then
        skipFrom markup .lineComment (place.after c) rest
      else ⟨place, c :: rest⟩ := by
  refine (skipFrom.eq_def _ _ _ _).trans ?_
  cases rest <;> rfl

theorem rest_skipFrom
    {markup : Bool} {mode mode' : TriviaMode} {place : Place}
    (place' : Place)
    {text : List Char}
    (hmode : mode.Agrees mode') :
    (skipFrom markup mode place text).rest = (skipFrom markup mode' place' text).rest := by
  fun_induction skipFrom markup mode place text generalizing mode' place' <;> cases hmode
  case case1 hrest => simpa [skipFrom] using hrest
  case case3 hblank ih => simpa [skipFrom_blanks_cons, hblank] using ih _ .blanks
  case case4 hblank hline ih =>
    simpa [skipFrom_blanks_cons, hblank, hline] using ih _ .lineComment
  case case5 hblank _ _ hline hblock ih =>
    simp only [skipFrom_blanks_cons, hblank, hline, hblock, Bool.false_eq_true, if_false, if_true]
    exact ih _ (.blockComment rfl)
  case case7 hblank hline hblock hmarkup ih =>
    simpa [skipFrom_blanks_cons, hblank, hline, hblock, hmarkup] using ih _ .lineComment
  case case8 hblank hline hblock hmarkup =>
    simp [skipFrom_blanks_cons, hblank, hline, hblock, hmarkup]
  case case9 hend ih => simpa [skipFrom, hend] using ih _ .blanks
  case case10 hend ih => simpa [skipFrom, hend] using ih _ .lineComment
  case case11 ih _ _ => simpa [skipFrom] using ih _ .blanks
  case case12 ih _ hrest => simpa [skipFrom] using ih _ (.blockComment hrest)
  all_goals simp_all [skipFrom]

theorem rest_moveOver (n : Nat) (place : Place) (text : List Char) :
    (Cursor.moveOver n place text).rest = text.drop n := by
  fun_induction Cursor.moveOver n place text with
  | case1 place n c rest ih => simpa using ih
  | case2 n place rest hlast => cases n <;> cases rest <;> simp_all

@[simp] theorem Cursor.rest_advance (cur : Cursor) (n : Nat) :
    (cur.advance n).rest = cur.rest.drop n :=
  rest_moveOver n cur.place cur.rest

@[simp] theorem Cursor.textTo_advance (cur : Cursor) (n : Nat) :
    cur.textTo (cur.advance n) = String.ofList (cur.rest.take n) := by
  have hlength : cur.rest.length - (cur.rest.length - n) = min n cur.rest.length := by omega
  rw [Cursor.textTo, Cursor.rest_advance, List.length_drop, hlength, ← List.take_eq_take_min]

/-! ## Words and punctuators -/

/-- The text behind the blanks and comments at its front. -/
def skipped (text : List Char) : List Char := (skipFrom false .blanks {} text).rest

/-- The first word of a text, and what follows it. -/
def wordAt (text : List Char) : Option (String × List Char) :=
  (nameLength? (skipped text)).map fun n =>
    (String.ofList ((skipped text).take n), (skipped text).drop n)

/-- The first punctuator of a text, and what follows it. -/
def markAt (text : List Char) : Option (String × List Char) :=
  (punctuator? (skipped text)).map fun mark => (mark, (skipped text).drop mark.length)

def wordOf (text : List Char) : String := ((wordAt text).map Prod.fst).getD ""

def markOf (text : List Char) : String := ((markAt text).map Prod.fst).getD ""

namespace Cursor

variable {cur : Cursor} {text after : List Char} {word mark : String}

@[simp] theorem rest_skip (cur : Cursor) : cur.skip.rest = skipped cur.rest :=
  rest_skipFrom _ .blanks

theorem word?_eq (cur : Cursor) :
    cur.word?.map (fun found => (found.1, found.2.rest)) = wordAt cur.rest := by
  simp [word?, wordAt, Function.comp_def]

theorem mark?_eq (cur : Cursor) :
    cur.mark?.map (fun found => (found.1, found.2.rest)) = markAt cur.rest := by
  simp [mark?, markAt, Function.comp_def]

theorem exists_word? (hcur : cur.rest = text) (hword : wordAt text = some (word, after)) :
    ∃ next, cur.word? = some (word, next) ∧ next.rest = after := by
  have hfound := word?_eq cur
  rw [hcur, hword, Option.map_eq_some_iff] at hfound
  obtain ⟨⟨found, next⟩, hnext, hpair⟩ := hfound
  cases hpair
  exact ⟨next, hnext, rfl⟩

theorem exists_mark? (hcur : cur.rest = text) (hmark : markAt text = some (mark, after)) :
    ∃ next, cur.mark? = some (mark, next) ∧ next.rest = after := by
  have hfound := mark?_eq cur
  rw [hcur, hmark, Option.map_eq_some_iff] at hfound
  obtain ⟨⟨found, next⟩, hnext, hpair⟩ := hfound
  cases hpair
  exact ⟨next, hnext, rfl⟩

theorem word?_eq_none (hcur : cur.rest = text) (hword : wordAt text = none) :
    cur.word? = none := by
  have hfound := word?_eq cur
  rwa [hcur, hword, Option.map_eq_none_iff] at hfound

theorem mark?_eq_none (hcur : cur.rest = text) (hmark : markAt text = none) :
    cur.mark? = none := by
  have hfound := mark?_eq cur
  rwa [hcur, hmark, Option.map_eq_none_iff] at hfound

theorem nextWord_eq (cur : Cursor) : cur.nextWord = wordOf cur.rest := by
  rw [nextWord, wordOf, ← word?_eq, Option.map_map]
  rfl

theorem nextMark_eq (cur : Cursor) : cur.nextMark = markOf cur.rest := by
  rw [nextMark, markOf, ← mark?_eq, Option.map_map]
  rfl

end Cursor

/-! ## Where a token starts -/

/-- The text starts with a token: neither a blank nor a comment stands in front. -/
def isFresh (text : List Char) : Bool :=
  match text with
  | [] => true
  | c :: _ =>
    !isBlank c && !startsWith text "//" && !startsWith text "/*" && !startsWith text "<!--" &&
      !startsWith text "-->"

theorem skipFrom_of_isFresh
    {text : List Char}
    (htext : isFresh text = true)
    (markup : Bool) (place : Place) :
    skipFrom markup .blanks place text = ⟨place, text⟩ := by
  cases text with
  | nil => simp [skipFrom]
  | cons c rest =>
      simp only [isFresh, Bool.and_eq_true, Bool.not_eq_true'] at htext
      simp [skipFrom_blanks_cons, htext]

theorem Cursor.skip_of_isFresh {cur : Cursor} (hcur : isFresh cur.rest = true) :
    cur.skip = cur :=
  skipFrom_of_isFresh hcur false cur.place

theorem Cursor.skipToOperand_of_isFresh {cur : Cursor} (hcur : isFresh cur.rest = true) :
    cur.skipToOperand = cur :=
  skipFrom_of_isFresh hcur true cur.place

theorem skipped_of_isFresh {text : List Char} (htext : isFresh text = true) :
    skipped text = text := by
  rw [skipped, skipFrom_of_isFresh htext]

theorem skipped_blank {c : Char} (hc : isBlank c = true) (text : List Char) :
    skipped (c :: text) = skipped text := by
  rw [skipped, skipFrom_blanks_cons, if_pos hc]
  exact rest_skipFrom _ .blanks

theorem wordAt_blank {c : Char} (hc : isBlank c = true) (text : List Char) :
    wordAt (c :: text) = wordAt text := by
  rw [wordAt, wordAt, skipped_blank hc]

theorem markAt_blank {c : Char} (hc : isBlank c = true) (text : List Char) :
    markAt (c :: text) = markAt text := by
  rw [markAt, markAt, skipped_blank hc]

@[simp] theorem wordAt_space (text : List Char) : wordAt (' ' :: text) = wordAt text :=
  wordAt_blank rfl text

@[simp] theorem markAt_space (text : List Char) : markAt (' ' :: text) = markAt text :=
  markAt_blank rfl text

@[simp] theorem wordOf_space (text : List Char) : wordOf (' ' :: text) = wordOf text := by
  simp [wordOf]

@[simp] theorem markOf_space (text : List Char) : markOf (' ' :: text) = markOf text := by
  simp [markOf]

theorem wordAt_of_isFresh {text : List Char} (htext : isFresh text = true) :
    wordAt text = (nameLength? text).map fun n => (String.ofList (text.take n), text.drop n) := by
  rw [wordAt, skipped_of_isFresh htext]

theorem markAt_of_isFresh {text : List Char} (htext : isFresh text = true) :
    markAt text = (punctuator? text).map fun mark => (mark, text.drop mark.length) := by
  rw [markAt, skipped_of_isFresh htext]

/-! ## Names -/

/-- The characters make up a name. -/
def isNameText : List Char → Bool
  | [] => false
  | c :: rest => !c.isDigit && isNameChar c && rest.all isNameChar

/-- A name is complete in front of the text. -/
def endsName (text : List Char) : Bool := text.head?.all fun c => !isNameChar c && c != '\\'

theorem nameTailLength_append
    {cs tail : List Char}
    (hcs : cs.all isNameChar = true) (htail : endsName tail = true) :
    nameTailLength 0 (cs ++ tail) = cs.length := by
  induction cs with
  | nil =>
      cases tail with
      | nil => rfl
      | cons c rest =>
          have hstop : isNameChar c = false ∧ c ≠ '\\' := by simpa [endsName] using htail
          have hescape : nameEscapeLength? (c :: rest) = none := by
            unfold nameEscapeLength?
            split <;> simp_all
          simp [nameTailLength, hstop.1, hescape]
  | cons c cs ih =>
      have hall : isNameChar c = true ∧ cs.all isNameChar = true := by simpa using hcs
      simp [nameTailLength, hall.1, ih hall.2]

theorem nameLength?_append
    {name tail : List Char}
    (hname : isNameText name = true) (htail : endsName tail = true) :
    nameLength? (name ++ tail) = some name.length := by
  cases name with
  | nil => simp [isNameText] at hname
  | cons c rest =>
      simp only [isNameText, Bool.and_eq_true, Bool.not_eq_true'] at hname
      have hall : (c :: rest).all isNameChar = true := by simp [hname.1.2, hname.2]
      have hlength := nameTailLength_append hall htail
      rw [List.cons_append] at hlength ⊢
      simp [nameLength?, hname.1.1, hlength]

theorem isFresh_of_ne
    {c : Char} {rest : List Char}
    (hblank : isBlank c = false) (hslash : c ≠ '/') (hless : c ≠ '<') (hdash : c ≠ '-') :
    isFresh (c :: rest) = true := by
  simp [isFresh, hblank, startsWith, List.isPrefixOf, hslash.symm, hless.symm, hdash.symm]

/-- A character that punctuators start with is no part of a name. -/
theorem ne_of_isNameChar
    {c d : Char}
    (hc : isNameChar c = true) (hd : nameStops.contains d = true) :
    c ≠ d := by
  rintro rfl
  simp only [isNameChar, hd, Bool.not_true, Bool.and_false, Bool.false_eq_true] at hc

theorem isFresh_of_isNameChar {c : Char} {rest : List Char} (hc : isNameChar c = true) :
    isFresh (c :: rest) = true := by
  have hblank : isBlank c = false := by
    simp only [isNameChar, Bool.and_eq_true, Bool.not_eq_true'] at hc
    exact hc.1.2
  exact isFresh_of_ne hblank (ne_of_isNameChar hc rfl) (ne_of_isNameChar hc rfl)
    (ne_of_isNameChar hc rfl)

theorem isFresh_of_isNameText {name tail : List Char} (hname : isNameText name = true) :
    isFresh (name ++ tail) = true := by
  cases name with
  | nil => simp [isNameText] at hname
  | cons c rest =>
      simp only [isNameText, Bool.and_eq_true] at hname
      exact isFresh_of_isNameChar hname.1.2

theorem wordAt_append
    {name : String} {tail : List Char}
    (hname : isNameText name.toList = true) (htail : endsName tail = true) :
    wordAt (name.toList ++ tail) = some (name, tail) := by
  rw [wordAt_of_isFresh (isFresh_of_isNameText hname), nameLength?_append hname htail]
  simp

theorem punctuator?_of_isNameChar
    {c : Char} {rest : List Char}
    (hc : isNameChar c = true) :
    punctuator? (c :: rest) = none := by
  have hheads : ∀ mark ∈ punctuators, ∃ d more, mark.toList = d :: more ∧
      nameStops.contains d = true := by
    intro mark hmark
    have hall : punctuators.all
        (fun mark => mark.toList.head?.any nameStops.contains) = true := by decide +kernel
    have hhead := List.all_eq_true.mp hall mark hmark
    cases hchars : mark.toList with
    | nil => simp [hchars] at hhead
    | cons d more => exact ⟨d, more, rfl, by simpa [hchars] using hhead⟩
  have hquestion : c ≠ '?' := ne_of_isNameChar hc rfl
  unfold punctuator?
  split
  · simp_all
  · rw [List.find?_eq_none]
    intro mark hmark
    obtain ⟨d, more, hchars, hd⟩ := hheads mark hmark
    have hne : d ≠ c := (ne_of_isNameChar hc hd).symm
    simp [startsWith, hchars, List.isPrefixOf, hne]

theorem markAt_of_isNameChar {c : Char} {rest : List Char} (hc : isNameChar c = true) :
    markAt (c :: rest) = none := by
  rw [markAt_of_isFresh (isFresh_of_isNameChar hc), punctuator?_of_isNameChar hc]
  rfl

/-! ## Punctuators -/

theorem skipped_of_ne
    {c : Char} {rest : List Char}
    (hblank : isBlank c = false) (hslash : c ≠ '/') :
    skipped (c :: rest) = c :: rest := by
  simp [skipped, skipFrom_blanks_cons, hblank, startsWith, List.isPrefixOf, hslash.symm]

theorem spaced_mark :
    ∀ mark ∈ punctuators, ∀ rest : List Char,
      isFresh (mark.toList ++ ' ' :: rest) = true ∧
        punctuator? (mark.toList ++ ' ' :: rest) = some mark := by
  simp only [punctuators, List.forall_mem_cons]
  and_intros
  all_goals first | exact fun rest => ⟨rfl, rfl⟩ | simp

/-- A punctuator with a blank behind it is read as it stands. -/
theorem markAt_spaced {mark : String} (hmark : mark ∈ punctuators) (rest : List Char) :
    markAt (mark.toList ++ ' ' :: rest) = some (mark, ' ' :: rest) := by
  obtain ⟨hfresh, hfound⟩ := spaced_mark mark hmark rest
  rw [markAt_of_isFresh hfresh, hfound]
  simp [List.drop_left' String.length_toList]

end Graft.Grammar
