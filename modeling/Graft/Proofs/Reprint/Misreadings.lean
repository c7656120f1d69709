import Graft.Proofs.Compile
import Graft.Proofs.Reprint.Program

/-!
# Readings that do not go through

Braces at the start of a statement are tried as an object before they are read as a block, and the
head of a loop is tried as the head of a loop over values.  Here it is shown where such a reading
gets stuck.  Most of them fail at once; some read a part of the text first, and then it is enough to
know what they would have to find behind it.
-/

namespace Graft.Grammar

open Text

variable {α β : Type} {g : Productions} {lineEnds : Bool} {tail : List Char}

/-! ## Where a reading can end -/

/-- If the parser reads something in front of `input`, then the text behind has the property. -/
def Ends (p : Parser α) (input : List Char) (Q : List Char → Prop) : Prop :=
  ∀ (cur : Cursor) (a : α) (stop : Cursor), cur.rest = input → p cur = .ok (a, stop) → Q stop.rest

namespace Ends

variable {p q : Parser α} {input output : List Char} {Q R : List Char → Prop}

theorem of_reads {P : α → Prop} (hp : Reads p input output P) : Ends p input (· = output) := by
  intro cur a stop hcur hrun
  obtain ⟨b, stop', hread, hstop, -⟩ := hp cur hcur
  rw [hread] at hrun
  cases hrun
  exact hstop

theorem of_fails (hp : Fails p input) : Ends p input Q := by
  intro cur a stop hcur hrun
  obtain ⟨fault, hfault⟩ := hp cur hcur
  rw [hfault] at hrun
  cases hrun

theorem fails (hp : Ends p input fun _ => False) : Fails p input := by
  intro cur hcur
  cases hrun : p cur with
  | error fault => exact ⟨fault, rfl⟩
  | ok result => exact (hp cur result.1 result.2 hcur hrun).elim

/-- A parser ends where what it goes on with ends. -/
theorem of_goesOn
    {next : β → Parser α} {P : β → Prop}
    (hp : GoesOn p input output next P) (hnext : ∀ b, P b → Ends (next b) output Q) :
    Ends p input Q := by
  intro cur a stop hcur hrun
  obtain ⟨b, middle, hgoes, hmiddle, hb⟩ := hp cur hcur
  rw [hgoes] at hrun
  exact hnext b hb middle a stop hmiddle hrun

theorem imp (hp : Ends p input Q) (himp : ∀ rest, Q rest → R rest) : Ends p input R :=
  fun cur a stop hcur hrun => himp _ (hp cur a stop hcur hrun)

theorem bind
    {f : α → Parser β}
    (hp : Ends p input Q) (hf : ∀ a rest, Q rest → Ends (f a) rest R) :
    Ends (p >>= f) input R := by
  intro cur b stop hcur hrun
  obtain ⟨⟨a, middle⟩, ha, hb⟩ := bind_eq_ok_iff.mp hrun
  exact hf a middle.rest (hp cur a middle hcur ha) middle b stop rfl hb

/-- What stands behind a text that has been read. -/
theorem after
    {P : α → Prop} {f : α → Parser β}
    (hp : Reads p input output P) (hf : ∀ a, P a → Ends (f a) output Q) :
    Ends (p >>= f) input Q :=
  of_goesOn hp.goesOn hf

theorem of_pure {a : α} (hinput : Q input) : Ends (pure a) input Q := by
  rintro cur _ _ rfl ⟨⟩
  exact hinput

theorem node
    {origin : Cursor} {kind : Kind} {slots : List (Field × Slot)}
    (hinput : Q input) :
    Ends (node origin kind slots) input Q := by
  rintro cur _ _ rfl ⟨⟩
  exact hinput

theorem of_unexpected : Ends (unexpected : Parser α) input Q := by
  rintro cur _ _ _ ⟨⟩

theorem get {f : Cursor → Parser α} (hf : ∀ cur : Cursor, cur.rest = input → Ends (f cur) input Q) :
    Ends (get >>= f) input Q :=
  fun cur a stop hcur hrun => hf cur hcur cur a stop hcur hrun

theorem ite
    {c : Prop} [Decidable c]
    (hp : c → Ends p input Q) (hq : ¬c → Ends q input Q) :
    Ends (if c then p else q) input Q := by
  split
  next hc => exact hp hc
  next hc => exact hq hc

theorem either (hp : Ends p input Q) (hq : Ends q input Q) : Ends (either p q) input Q := by
  intro cur a stop hcur hrun
  unfold Grammar.either at hrun
  split at hrun
  next hfirst =>
    cases hrun
    exact hp cur a stop hcur hfirst
  next => exact hq cur a stop hcur hrun

theorem eitherReading (hp : Ends p input Q) (hq : Ends q input Q) :
    Ends (eitherReading p q) input Q := by
  intro cur a stop hcur hrun
  unfold Grammar.eitherReading at hrun
  split at hrun
  next hfirst =>
    cases hrun
    exact hp cur a stop hcur hfirst
  next => cases hrun
  next =>
    split at hrun
    next => cases hrun
    next => exact hq cur a stop hcur hrun

theorem blanks
    {blanks : List Char}
    (hskips : Skips p) (hblanks : ∀ c ∈ blanks, isBlank c = true) (hp : Ends p input Q) :
    Ends p (blanks ++ input) Q :=
  of_goesOn (.blanks hblanks hskips .refl) fun _ _ => hp

end Ends

theorem isBlank_of_mem_space : ∀ c ∈ [' '], isBlank c = true :=
  List.forall_mem_singleton.mpr rfl

theorem Fails.bind
    {p : Parser α} {f : α → Parser β} {input : List Char}
    (hp : Fails p input) :
    Fails (p >>= f) input :=
  Ends.fails (.bind (.of_fails hp) fun _ _ => False.elim)

theorem Fails.after
    {p : Parser α} {f : α → Parser β} {input output : List Char} {P : α → Prop}
    (hp : Reads p input output P) (hf : ∀ a, P a → Fails (f a) output) :
    Fails (p >>= f) input :=
  Ends.fails (.after hp fun a ha => .of_fails (hf a ha))

/-- What every round of a loop keeps holds behind the loop. -/
theorem Ends.whileMore
    {more : Cursor → Bool} {p : Parser α} {input : List Char} {Q : List Char → Prop}
    (hinput : Q input) (hround : ∀ cur : Cursor, Q cur.rest → more cur = true → Ends p cur.rest Q) :
    Ends (whileMore more p) input Q := by
  have hrepeated : ∀ fuel rest, Q rest → Ends (repeated more p fuel) rest Q := by
    intro fuel
    induction fuel with
    | zero => exact fun rest hrest => .of_pure hrest
    | succ fuel ih =>
        refine fun rest hrest => .get fun cur hcur => ?_
        subst hcur
        cases hmore : more cur with
        | false => exact .of_pure hrest
        | true =>
            refine (hround cur hrest hmore).bind fun _ middle hmiddle => ?_
            exact (ih middle hmiddle).bind fun _ _ hstop => .of_pure hstop
  exact .get fun cur _ => hrepeated _ _ hinput

/-- A loop whose first round fails. -/
theorem Fails.whileMore
    {more : Cursor → Bool} {p : Parser α} {input : List Char}
    (hmore : ∀ cur : Cursor, cur.rest = input → more cur = true) (hp : Fails p input) :
    Fails (whileMore more p) input := by
  refine Ends.fails (.get fun cur _ => ?_)
  refine Ends.get fun cur hcur => ?_
  simp only [hmore cur hcur, if_true]
  exact .of_fails hp.bind

/-! ## Tokens that are not there -/

theorem fails_mark {text : String} {input : List Char} (hmark : markOf input ≠ text) :
    Fails (mark text) input := by
  refine Ends.fails (.get fun cur hcur => ?_)
  have hnext : cur.nextMark ≠ text := by rwa [Cursor.nextMark_eq, hcur]
  cases hfound : cur.mark? with
  | none => exact .of_unexpected
  | some found =>
      have hne : found.1 ≠ text := by simpa [Cursor.nextMark, hfound] using hnext
      simp only [beq_iff_eq, hne, if_false]
      exact .of_unexpected

theorem fails_keyword
    {text : String} {input : List Char}
    (hword : wordOf input ≠ text) :
    Fails (keyword text) input := by
  refine Ends.fails (.get fun cur hcur => ?_)
  have hnext : cur.nextWord ≠ text := by rwa [Cursor.nextWord_eq, hcur]
  cases hfound : cur.word? with
  | none => exact .of_unexpected
  | some found =>
      have hne : found.1 ≠ text := by simpa [Cursor.nextWord, hfound] using hnext
      simp only [beq_iff_eq, hne, if_false]
      exact .of_unexpected

theorem fails_anyName {input : List Char} (hword : wordAt input = none) : Fails anyName input := by
  have hname : nameLength? (skipped input) = none := by
    simpa [wordAt] using hword
  refine .after (Reads.start rfl) fun origin _ => .bind ?_
  refine Ends.fails (.get fun cur hcur => ?_)
  simp only [hcur, hname]
  exact .of_unexpected

theorem fails_variableName {input : List Char} (hword : isReserved (wordOf input) = true) :
    Fails variableName input := by
  refine Ends.fails (.get fun cur hcur => ?_)
  have hnext : isReserved cur.nextWord = true := by rwa [Cursor.nextWord_eq, hcur]
  simp only [hnext, if_true]
  exact Ends.bind (Q := fun _ => False) .of_unexpected fun _ _ => False.elim

/-! ## Operands -/

theorem Ends.operand
    {text : List Char} {Q : List Char → Prop}
    (hopens : OpensPlainly text)
    (hplain : Ends (do
      let first ← primary g lineEnds
      let whole ← suffixed g true lineEnds first
      assigned g lineEnds whole) text Q) :
    Ends (operand g lineEnds) text Q :=
  .of_goesOn (goesOn_operand hopens .refl) fun _ _ => hplain

theorem fails_operation
    {d least : Nat} {text : List Char}
    (hopens : OpensPlainly text) (hprimary : Fails (primary (depth d) lineEnds) text) :
    Fails ((depth (d + 1)).operation least lineEnds) text :=
  .bind (Ends.fails (.operand hopens (.of_fails hprimary.bind)))

/-- Words that start a statement and no operand. -/
def clauseWords : List String := ["if", "while", "do", "for"]

theorem clauseWords_facts :
    ∀ word ∈ clauseWords, isNameText word.toList = true ∧
      isReserved word = true ∧ word ∉ ["typeof", "void", "delete", "await", "yield"] ∧
        word ∉ ["static", "async", "get", "set"] := by
  decide +kernel

theorem fails_primary_word
    {word : String}
    (hword : word ∈ clauseWords ++ unaryWords) (hends : endsName tail = true) :
    Fails (primary g lineEnds) (word.toList ++ tail) := by
  have hfacts : ∀ word ∈ clauseWords ++ unaryWords,
      isNameText word.toList = true ∧ isReserved word = true := by
    decide +kernel
  obtain ⟨hname, hreserved⟩ := hfacts word hword
  have hfound := wordAt_append hname hends
  refine .after (Reads.operandStart (isFresh_of_isNameText hname)) fun origin horigin => ?_
  obtain ⟨next, hnext, -⟩ := Cursor.exists_word? horigin hfound
  have hvariable : Fails variableName (word.toList ++ tail) :=
    fails_variableName (by rwa [wordOf_eq hfound])
  simp only [hnext]
  refine .after (Reads.start (skipped_name hname tail)) fun origin _ => ?_
  simp only [clauseWords, unaryWords, List.cons_append, List.nil_append, List.mem_cons,
    List.not_mem_nil, or_false] at hword
  rcases hword with rfl | rfl | rfl | rfl | rfl | rfl | rfl
  all_goals exact hvariable.bind

theorem fails_primary_semicolon : Fails (primary g lineEnds) (';' :: tail) := by
  refine .after (Reads.operandStart rfl) fun origin horigin => ?_
  have hword : origin.word? = none :=
    Cursor.word?_eq_none horigin (wordAt_of_stop rfl (by decide) (by decide))
  simp only [hword, horigin]
  refine .bind (.after (Reads.start (skipped_of_isFresh rfl)) fun origin _ => .bind ?_)
  refine Ends.fails (.get fun cur hcur => ?_)
  have hlength : numberLength? (';' :: tail) = none := rfl
  simp only [hcur, hlength]
  exact .of_unexpected

/-! ## Patterns -/

/-- A text that starts with no bracket is a pattern only as a target. -/
theorem Ends.pattern
    {text : List Char} {Q : List Char → Prop}
    (hfresh : isFresh text = true)
    (hmark : markOf text ∉ ["...", "[", "\x7b"])
    (htarget : Ends (target g) text Q) :
    Ends (pattern g) text Q := by
  simp only [List.mem_cons, List.not_mem_nil, or_false, not_or] at hmark
  refine .after (Reads.start (skipped_of_isFresh hfresh)) fun origin _ => ?_
  refine .after (Reads.hasMark_false hmark.1) fun found hfound => ?_
  rw [hfound]
  refine .get fun cur hcur => ?_
  have hnext : cur.nextMark = markOf text := by rw [Cursor.nextMark_eq, hcur]
  simp only [hnext, beq_iff_eq, hmark.2.1, hmark.2.2, if_false]
  exact htarget

/-- A chain as a target is read to its end. -/
theorem Chains.ends_target
    {integer : Bool} {text : List Char} {n : Node}
    (hchain : Chains g true integer text n)
    (htail : ChainFollows integer tail)
    (hstops : suffixStops true tail) :
    Ends (target g) (text ++ tail) (· = tail) := by
  unfold target
  rw [← bind_assoc]
  refine .after (hchain.reads htail hstops) fun whole _ => ?_
  exact .ite (fun _ => .of_pure rfl) fun _ => .of_unexpected

/-! ## Objects -/

/-- The reading of an object gets no further than the text. -/
def Stranded (text : List Char) : Prop := markOf text ∉ ["\x7d", ",", "="]

theorem Stranded.more
    {text : List Char}
    (htext : Stranded text)
    {cur : Cursor}
    (hcur : cur.rest = text) :
    (cur.nextMark != "\x7d") = true := by
  simp only [Stranded, List.mem_cons, not_or] at htext
  rw [Cursor.nextMark_eq, hcur]
  simpa using htext.1

theorem Stranded.fails_comma {text : List Char} (htext : Stranded text) :
    Fails (mark ",") text := by
  simp only [Stranded, List.mem_cons, not_or] at htext
  exact fails_mark htext.2.1

theorem markAt_brace (rest : List Char) : markAt ('\x7b' :: rest) = some ("\x7b", rest) := by
  rw [markAt_of_isFresh rfl]
  rfl

/-- What a member of an object may end in front of: a text with which the object does not go on, or
some other one, with no default value. -/
structure MemberEnd (Q : List Char → Prop) : Prop where
  stranded : ∀ rest, Stranded rest → Q rest
  noDefault : ∀ rest, Q rest → markOf rest ≠ "="

theorem memberEnd_stranded : MemberEnd Stranded where
  stranded _ hrest := hrest
  noDefault rest hrest := by
    simp only [Stranded, List.mem_cons, not_or] at hrest
    exact hrest.2.2.1

/-- Where the only member of an object may end: in front of the brace too, if `through` holds. -/
def LastMemberEnd (through : Prop) (close rest : List Char) : Prop :=
  Stranded rest ∨ through ∧ rest = close

theorem memberEnd_lastMember
    {through : Prop} {close : List Char}
    (hclose : markOf close = "\x7d") :
    MemberEnd (LastMemberEnd through close) where
  stranded _ := .inl
  noDefault rest hrest := by
    rcases hrest with hrest | ⟨-, rfl⟩
    · exact memberEnd_stranded.noDefault rest hrest
    · rw [hclose]
      decide

section

variable {through : Prop} {inner close : List Char}
  (hmark : markOf inner ∉ ["\x7d", ","]) (hclose : markAt close = some ("\x7d", tail))

include hmark hclose

/-- The loop over the members of an object that has a single one. -/
theorem ends_members
    {round : Parser α}
    (hround : Ends round inner fun rest => through ∧ rest = close) :
    Ends (whileMore (fun cur => cur.nextMark != "\x7d") round) inner fun rest =>
      Ends (mark "\x7d") rest fun stop => through ∧ stop = tail := by
  simp only [List.mem_cons, List.not_mem_nil, or_false, not_or] at hmark
  have hloop : Ends (whileMore (fun cur => cur.nextMark != "\x7d") round) inner fun rest =>
      rest = inner ∨ through ∧ rest = close := by
    refine .whileMore (.inl rfl) fun cur hcur hmore => ?_
    rcases hcur with hcur | ⟨-, hcur⟩
    · rw [hcur]
      exact hround.imp fun _ => .inr
    · rw [Cursor.nextMark_eq, hcur, markOf_eq hclose] at hmore
      cases hmore
  refine hloop.imp fun rest hrest => ?_
  rcases hrest with rfl | ⟨hthrough, rfl⟩
  · exact .of_fails (fails_mark hmark.1)
  · exact (Ends.of_reads (Reads.mark hclose)).imp fun _ hstop => ⟨hthrough, hstop⟩

/-- An object ends with its brace, if its first member gets through to it. -/
theorem ends_object (hmember : Ends (objectMember g) inner (LastMemberEnd through close)) :
    Ends (object g) ('\x7b' :: inner) fun rest => through ∧ rest = tail := by
  refine .after (Reads.start (skipped_of_isFresh rfl)) fun origin _ => ?_
  refine .after (Reads.mark (markAt_brace inner)) fun _ _ => ?_
  refine (ends_members hmark hclose ?_).bind fun _ rest hrest =>
    hrest.bind fun _ stop hstop => .node hstop
  simp only [List.mem_cons, List.not_mem_nil, or_false, not_or] at hmark
  refine .after (Reads.hasMark_false hmark.2) fun found hfound => ?_
  rw [hfound]
  refine hmember.bind fun _ rest hrest => .get fun cur hcur => ?_
  rcases hrest with hrest | ⟨hthrough, rfl⟩
  · simp only [hrest.more hcur, if_true]
    exact .of_fails hrest.fails_comma.bind
  · have hnext : cur.nextMark = "\x7d" := by rw [Cursor.nextMark_eq, hcur, markOf_eq hclose]
    simp only [hnext, bne_self_eq_false, Bool.false_eq_true, if_false]
    exact .of_pure ⟨hthrough, rfl⟩

/-- The same for an object that is a pattern. -/
theorem ends_objectPattern
    (hmember : Ends (objectPatternMember g) inner (LastMemberEnd through close)) :
    Ends (objectPattern g) ('\x7b' :: inner) fun rest => through ∧ rest = tail := by
  refine .after (Reads.start (skipped_of_isFresh rfl)) fun origin _ => ?_
  refine .after (Reads.mark (markAt_brace inner)) fun _ _ => ?_
  refine (ends_members hmark hclose ?_).bind fun _ rest hrest =>
    hrest.bind fun _ stop hstop => .get fun _ _ => .of_pure hstop
  simp only [List.mem_cons, List.not_mem_nil, or_false, not_or] at hmark
  refine .after (Reads.hasMark_false hmark.2) fun found hfound => ?_
  rw [hfound]
  refine hmember.bind fun _ rest hrest => .get fun cur hcur => ?_
  rcases hrest with hrest | ⟨hthrough, rfl⟩
  · simp only [hrest.more hcur, if_true]
    exact .of_fails hrest.fails_comma
  · have hnext : cur.nextMark = "\x7d" := by rw [Cursor.nextMark_eq, hcur, markOf_eq hclose]
    simp only [hnext, bne_self_eq_false, Bool.false_eq_true, if_false]
    exact .of_pure ⟨hthrough, rfl⟩

end

/-- The loop over the members of braces without anything in them. -/
theorem reads_members_none
    {round : Parser α} {inner : List Char}
    (hclose : markAt inner = some ("\x7d", tail)) :
    Reads (whileMore (fun cur => cur.nextMark != "\x7d") round) inner inner fun _ => True := by
  have hstop : ∀ cur : Cursor, cur.rest = inner → (cur.nextMark != "\x7d") = false := by
    intro cur hcur
    rw [Cursor.nextMark_eq, hcur, markOf_eq hclose]
    rfl
  have hrounds : Rounds _ round (fun (_ : Unit) _ => True) [] inner inner := .nil hstop
  exact hrounds.whileMore.imp fun _ _ => trivial

/-- Braces without anything in them. -/
theorem reads_object_empty {inner : List Char} (hclose : markAt inner = some ("\x7d", tail)) :
    Reads (object g) ('\x7b' :: inner) tail fun _ => True := by
  refine (Reads.start (skipped_of_isFresh rfl)).bind fun origin _ => ?_
  refine (Reads.mark (markAt_brace inner)).bind fun _ _ => ?_
  refine (reads_members_none hclose).bind fun _ _ => ?_
  exact (Reads.mark hclose).bind fun _ _ => Reads.node fun _ => trivial

theorem reads_objectPattern_empty
    {inner : List Char}
    (hclose : markAt inner = some ("\x7d", tail)) :
    Reads (objectPattern g) ('\x7b' :: inner) tail fun _ => True := by
  refine (Reads.start (skipped_of_isFresh rfl)).bind fun origin _ => ?_
  refine (Reads.mark (markAt_brace inner)).bind fun _ _ => ?_
  refine (reads_members_none hclose).bind fun _ _ => ?_
  exact (Reads.mark hclose).bind fun _ _ => .get fun _ _ => .of_pure trivial

theorem ends_pattern_brace
    {d : Nat} {inner : List Char} {Q : List Char → Prop}
    (hpattern : Ends (objectPattern (depth d)) ('\x7b' :: inner) Q) :
    Ends (depth (d + 1)).pattern ('\x7b' :: inner) Q := by
  have hmark : markOf ('\x7b' :: inner) = "\x7b" := markOf_eq (markAt_brace inner)
  refine .after (Reads.start (skipped_of_isFresh rfl)) fun origin _ => ?_
  refine .after (Reads.hasMark_false (by rw [hmark]; decide)) fun found hfound => ?_
  rw [hfound]
  refine .get fun cur hcur => ?_
  have hnext : cur.nextMark = "\x7b" := by rw [Cursor.nextMark_eq, hcur, hmark]
  simp only [hnext]
  exact hpattern

/-! ## Values -/

/-- Behind a value, the reading ends where `Q` holds, be it in front of the text or behind calls
that the text starts with. -/
structure EndsBehind (need : Nat) (Q : List Char → Prop) (tail : List Char) : Prop where
  here : Q tail
  behind : ∀ d lineEnds o, need ≤ d →
    Ends (suffixed (depth d) true lineEnds o) tail fun rest => Q rest ∧ Stops 0 rest

theorem EndsBehind.of_stops
    {Q : List Char → Prop}
    (htail : Q tail) (hstops : Stops 0 tail) :
    EndsBehind 0 Q tail where
  here := htail
  behind d lineEnds o _ := by
    have hread : Reads (suffixed (depth d) true lineEnds o) tail tail (· = o) :=
      reads_suffixed_none (suffixStops_of_notMem hstops.noSuffix true)
    refine (Ends.of_reads hread).imp ?_
    rintro _ rfl
    exact ⟨htail, hstops⟩

theorem opensPlainly_brace (inner : List Char) : OpensPlainly ('\x7b' :: inner) := by
  refine ⟨rfl, ?_, ?_⟩
  · rw [wordOf, wordAt_of_stop rfl (by decide) (by decide)]
    decide
  · rw [markOf_eq (markAt_brace inner)]
    decide

/-- Braces as an operand are an object or a pattern. -/
theorem goesOn_primary_brace
    {β : Type} {next : β → Parser Operand} {P : β → Prop} {inner output : List Char}
    (hbraces : GoesOn (bracketed g (object g)) ('\x7b' :: inner) output next P) :
    GoesOn (primary g lineEnds) ('\x7b' :: inner) output next P := by
  have hword : wordAt ('\x7b' :: inner) = none := wordAt_of_stop rfl (by decide) (by decide)
  refine (Reads.operandStart rfl).bind fun origin horigin => ?_
  simp only [Cursor.word?_eq_none horigin hword, horigin]
  exact hbraces

/-- Braces as a value. -/
theorem ends_operation_brace
    {d need : Nat} {through : Prop} {inner : List Char} {Q : List Char → Prop}
    (hd : need ≤ d + 1)
    (hobject : Ends (object (depth (d + 1))) ('\x7b' :: inner) fun rest => through ∧ rest = tail)
    (hpattern : Ends (objectPattern (depth d)) ('\x7b' :: inner) fun rest => through ∧ rest = tail)
    (hbehind : through → EndsBehind need Q tail) :
    Ends ((depth (d + 2)).operation 0 lineEnds) ('\x7b' :: inner) Q := by
  have hbraces : Ends (bracketed (depth (d + 1)) (object (depth (d + 1)))) ('\x7b' :: inner)
      fun rest => through ∧ rest = tail := by
    refine .after (Reads.start (skipped_of_isFresh rfl)) fun origin _ => ?_
    have hreading : Ends (eitherReading
        (do return (⟨← object (depth (d + 1)), origin, .literal⟩ : Operand))
          (do return ⟨← (depth (d + 1)).pattern, origin, .name⟩)) ('\x7b' :: inner)
            fun rest => through ∧ rest = tail :=
      .eitherReading (hobject.bind fun _ _ hrest => .of_pure hrest)
        ((ends_pattern_brace hpattern).bind fun _ _ hrest => .of_pure hrest)
    refine hreading.bind fun found rest hrest => ?_
    exact .get fun cur hcur => .ite (fun _ => .of_pure hrest) fun _ => .of_unexpected
  have hprimary : Ends (primary (depth (d + 1)) lineEnds) ('\x7b' :: inner)
      fun rest => through ∧ rest = tail :=
    .of_goesOn (goesOn_primary_brace .refl) fun _ _ => hbraces
  have hwhole : Ends (do
      let first ← primary (depth (d + 1)) lineEnds
      let whole ← suffixed (depth (d + 1)) true lineEnds first
      assigned (depth (d + 1)) lineEnds whole) ('\x7b' :: inner) fun rest =>
        Q rest ∧ Stops 0 rest := by
    refine hprimary.bind fun first rest hrest => ?_
    obtain ⟨hthrough, rfl⟩ := hrest
    refine ((hbehind hthrough).behind (d + 1) lineEnds first hd).bind fun whole stop hstop => ?_
    refine (Ends.of_reads (reads_assigned_none hstop.2.noAssignment)).imp ?_
    rintro _ rfl
    exact hstop
  refine (Ends.operand (opensPlainly_brace inner) hwhole).bind fun left rest hrest => ?_
  refine .get fun cur _ => ?_
  refine (Ends.of_reads (reads_operators_none hrest.2)).imp ?_
  rintro _ rfl
  exact hrest.1

/-! ## Members of objects -/

theorem reads_modifier_false
    {word : String} {goesOn : Cursor → Bool} {text : List Char}
    (hword : wordOf text ≠ word) :
    Reads (modifier word goesOn) text text (· = false) := by
  refine .get fun cur hcur => ?_
  have hnext : cur.nextWord ≠ word := by rwa [Cursor.nextWord_eq, hcur]
  cases hfound : cur.word? with
  | none => exact .of_pure rfl
  | some found =>
      have hne : found.1 ≠ word := by simpa [Cursor.nextWord, hfound] using hnext
      simp only [beq_iff_eq, Bool.and_eq_true, hne, false_and, if_false]
      exact .of_pure rfl

/-- Words in front of the name of a method. -/
def modifierWords : List String := ["static", "async", "get", "set"]

theorem reads_methodHead
    {text : List Char}
    (hword : wordOf text ∉ modifierWords) (hmark : markOf text ≠ "*") :
    Reads methodHead text text (· = ⟨false, false, false, "init"⟩) := by
  simp only [modifierWords, List.mem_cons, List.not_mem_nil, or_false, not_or] at hword
  refine (reads_modifier_false hword.1).bind fun isStatic hstatic => ?_
  refine (reads_modifier_false hword.2.1).bind fun async hasync => ?_
  refine (Reads.hasMark_false hmark).bind fun generator hgenerator => ?_
  simp only [hgenerator, Bool.false_eq_true, if_false]
  refine (reads_modifier_false hword.2.2.1).bind fun getter hgetter => ?_
  simp only [hgetter, Bool.false_eq_true, if_false]
  refine (reads_modifier_false hword.2.2.2).bind fun setter hsetter => ?_
  simp only [hsetter, Bool.false_eq_true, if_false]
  exact .of_pure (by rw [hstatic, hasync])

/-- A key that is a word. -/
theorem reads_propertyKey
    {word : String}
    (hname : isNameText word.toList = true) (hends : endsName tail = true) :
    Reads (propertyKey g) (word.toList ++ tail) tail fun key =>
      ∃ span, key = (.identifier word span, false) := by
  refine (Reads.start (skipped_name hname tail)).bind fun origin horigin => ?_
  have hread : Reads (do return (← anyName, false)) (word.toList ++ tail) tail
      fun key => ∃ span, key = (.identifier word span, false) := by
    refine (reads_anyName hname hends).bind fun n hn => ?_
    obtain ⟨span, rfl⟩ := hn
    exact .of_pure ⟨span, rfl⟩
  cases hchars : word.toList with
  | nil => simp [hchars, isNameText] at hname
  | cons c rest =>
      rw [hchars] at hname horigin hread
      simp only [isNameText, Bool.and_eq_true, Bool.not_eq_true'] at hname
      have hne : ∀ d, nameStops.contains d = true → c ≠ d :=
        fun d hd => ne_of_isNameChar hname.1.2 hd
      rw [horigin, List.cons_append]
      split
      next heq => exact absurd (List.cons.inj heq).1 (hne _ (by decide))
      next heq => exact absurd (List.cons.inj heq).1 (hne _ (by decide))
      next heq =>
        obtain ⟨rfl, -⟩ := List.cons.inj heq
        rw [if_neg (by simp [hne '"' (by decide), hne '\'' (by decide)]),
          if_neg (by simp [hname.1.1, hne '.' (by decide)])]
        exact hread
      next heq => cases heq

/-- The marks that a statement may start with. -/
def statementMarks : List (Char × String) := [(';', ";"), ('(', "("), ('\x7b', "\x7b")]

theorem statementMarks_facts :
    ∀ entry ∈ statementMarks, ∀ rest : List Char,
      isFresh (entry.1 :: rest) = true ∧ markAt (entry.1 :: rest) = some (entry.2, rest) ∧
        wordAt (entry.1 :: rest) = none ∧ entry.2 ∉ ["...", "*", "\x7d", ","] := by
  simp only [statementMarks, List.forall_mem_cons]
  refine ⟨fun rest => ?_, fun rest => ?_, fun rest => ?_, by simp⟩
  · exact ⟨rfl, markAt_closer (by decide) rest, wordAt_of_stop rfl (by decide) (by decide),
      by decide⟩
  · exact ⟨rfl, markAt_open rest, wordAt_of_stop rfl (by decide) (by decide), by decide⟩
  · exact ⟨rfl, markAt_brace rest, wordAt_of_stop rfl (by decide) (by decide), by decide⟩

/-- A mark that a statement starts with is no key. -/
theorem fails_propertyKey {c : Char} {mark : String} (hc : (c, mark) ∈ statementMarks) :
    Fails (propertyKey g) (c :: tail) := by
  obtain ⟨hfresh, -, hword, -⟩ := statementMarks_facts _ hc tail
  refine .after (Reads.start (skipped_of_isFresh hfresh)) fun origin horigin => ?_
  have hname := fails_anyName hword
  simp only [statementMarks, List.mem_cons, List.not_mem_nil, or_false, Prod.mk.injEq] at hc
  rw [horigin]
  rcases hc with ⟨rfl, -⟩ | ⟨rfl, -⟩ | ⟨rfl, -⟩
  all_goals exact hname.bind

theorem fails_objectMember_mark
    {c : Char} {mark : String}
    (hc : (c, mark) ∈ statementMarks) :
    Fails (objectMember g) (c :: tail) := by
  obtain ⟨hfresh, hmark, hword, hne⟩ := statementMarks_facts _ hc tail
  simp only [List.mem_cons, List.not_mem_nil, or_false, not_or] at hne
  refine .after (Reads.start (skipped_of_isFresh hfresh)) fun origin horigin => ?_
  have hnext : origin.nextMark ≠ "..." := by
    rw [Cursor.nextMark_eq, horigin, markOf_eq hmark]
    exact hne.1
  simp only [beq_iff_eq, hnext, if_false]
  refine .after (reads_methodHead ?_ ?_) fun head _ => (fails_propertyKey hc).bind
  · rw [wordOf, hword]
    decide
  · rw [markOf_eq hmark]
    exact hne.2.1

theorem fails_objectPatternMember_mark
    {c : Char} {mark : String}
    (hc : (c, mark) ∈ statementMarks) :
    Fails (objectPatternMember g) (c :: tail) := by
  obtain ⟨hfresh, hmark, -, hne⟩ := statementMarks_facts _ hc tail
  simp only [List.mem_cons, List.not_mem_nil, or_false, not_or] at hne
  refine .after (Reads.start (skipped_of_isFresh hfresh)) fun origin horigin => ?_
  have hnext : origin.nextMark ≠ "..." := by
    rw [Cursor.nextMark_eq, horigin, markOf_eq hmark]
    exact hne.1
  simp only [beq_iff_eq, hnext, if_false]
  exact (fails_propertyKey hc).bind

/-- Behind a word that is a key, a member of an object or of a pattern ends where `Q` holds. -/
structure KeyEnds (g : Productions) (word : String) (after : List Char) (Q : List Char → Prop) :
    Prop where
  method : markOf after = "(" → Ends (parameters g) after fun rest => Ends g.block rest Q
  value : ∀ rest, markAt after = some (":", rest) → Ends (g.expression false) rest Q
  pattern : ∀ rest, markAt after = some (":", rest) → Ends g.pattern rest Q
  short : isReserved word = false → markOf after ≠ ":" → Q after

theorem markOf_ne_or_exists (text : List Char) (mark : String) (hne : mark ≠ "") :
    markOf text ≠ mark ∨ ∃ rest, markAt text = some (mark, rest) := by
  cases hfound : markAt text with
  | none =>
      left
      rw [markOf, hfound]
      exact hne.symm
  | some found =>
      by_cases heq : found.1 = mark
      · exact .inr ⟨found.2, by rw [← heq]⟩
      · left
        rw [markOf, hfound]
        exact heq

theorem fails_block
    {input : List Char}
    (hfresh : isFresh input = true) (hmark : markOf input ≠ "\x7b") :
    Fails g.block input :=
  .after (Reads.start (skipped_of_isFresh hfresh)) fun _ _ => .bind (fails_mark hmark)

section

variable {word : String} {Q : List Char → Prop}
  (hkey : KeyEnds g word tail Q) (hname : isNameText word.toList = true)
  (hends : endsName tail = true)

include hkey hname hends

theorem KeyEnds.ends_objectMember (hword : word ∉ modifierWords) :
    Ends (objectMember g) (word.toList ++ tail) Q := by
  have hmarkOf : markOf (word.toList ++ tail) = "" := by
    rw [markOf, markAt_of_isNameText hname]
    rfl
  refine .after (Reads.start (skipped_name hname tail)) fun origin horigin => ?_
  have hnext : origin.nextMark ≠ "..." := by
    rw [Cursor.nextMark_eq, horigin, hmarkOf]
    decide
  simp only [beq_iff_eq, hnext, if_false]
  refine .after (reads_methodHead ?_ ?_) fun head hhead => ?_
  · rwa [wordOf_eq (wordAt_append hname hends)]
  · rw [hmarkOf]
    decide
  subst hhead
  refine .after (reads_propertyKey hname hends) fun key hkeyNode => ?_
  obtain ⟨span, rfl⟩ := hkeyNode
  have hkeyName : (Node.identifier word span).name? = some word := rfl
  refine .get fun after hafter => ?_
  refine .ite (fun hopen => ?_) fun _ => .ite (fun _ => .of_unexpected) fun _ => ?_
  · rw [Cursor.nextMark_eq, hafter] at hopen
    refine (hkey.method (by simpa using hopen)).bind fun _ rest hrest => ?_
    exact hrest.bind fun _ stop hstop => .bind (.node hstop) fun _ _ => .node
  · rcases markOf_ne_or_exists tail ":" (by decide) with hne | ⟨rest, hcolon⟩
    · refine .after (Reads.hasMark_false hne) fun found hfound => ?_
      simp only [hfound, Bool.false_eq_true, if_false, hkeyName, Bool.false_or, Bool.or_eq_true]
      refine .ite (fun _ => .of_unexpected) fun hother => ?_
      exact .node (hkey.short (Bool.not_eq_true _ |>.mp (not_or.mp hother).1) hne)
    · refine .after (Reads.hasMark hcolon) fun found hfound => ?_
      rw [hfound]
      exact (hkey.value rest hcolon).bind fun _ _ hrest => .node hrest

theorem KeyEnds.ends_objectPatternMember (hQ : MemberEnd Q) :
    Ends (objectPatternMember g) (word.toList ++ tail) Q := by
  refine .after (Reads.start (skipped_name hname tail)) fun origin horigin => ?_
  have hnext : origin.nextMark ≠ "..." := by
    rw [Cursor.nextMark_eq, horigin, markOf, markAt_of_isNameText hname]
    decide
  simp only [beq_iff_eq, hnext, if_false]
  refine .after (reads_propertyKey hname hends) fun key hkeyNode => ?_
  obtain ⟨span, rfl⟩ := hkeyNode
  have hkeyName : (Node.identifier word span).name? = some word := rfl
  rcases markOf_ne_or_exists tail ":" (by decide) with hne | ⟨rest, hcolon⟩
  · refine .after (Reads.hasMark_false hne) fun found hfound => ?_
    simp only [hfound, Bool.false_eq_true, if_false, hkeyName, Bool.false_or]
    refine .ite (fun _ => .bind (Q := fun _ => False) .of_unexpected fun _ _ => False.elim)
      fun hother => ?_
    have htail := hkey.short (Bool.not_eq_true _ |>.mp hother) hne
    refine .after (Reads.hasMark_false (hQ.noDefault _ htail)) fun found hfound => ?_
    rw [hfound]
    exact .of_pure htail
  · refine .after (Reads.hasMark hcolon) fun found hfound => ?_
    rw [hfound]
    refine (hkey.pattern rest hcolon).bind fun _ more hmore => ?_
    refine .after (Reads.hasMark_false (hQ.noDefault _ hmore)) fun found hfound => ?_
    rw [hfound]
    exact .of_pure hmore

end

/-! ## Parameters -/

/-- Parameters whose first one does not end where a parameter may end. -/
theorem fails_parameters
    {text : List Char}
    (hopen : markOf text ≠ ")")
    (hfirst : Ends (parameter g) text fun rest => markOf rest ∉ [")", ","]) :
    Fails (parameters g) ('(' :: text) := by
  refine .after (Reads.mark (markAt_open _)) fun _ _ => .bind (.whileMore ?_ ?_)
  · intro cur hcur
    rw [Cursor.nextMark_eq, hcur]
    simpa using hopen
  · refine Ends.fails (hfirst.bind fun p rest hrest => .get fun cur hcur => ?_)
    simp only [List.mem_cons, List.not_mem_nil, or_false, not_or] at hrest
    have hnext : (cur.nextMark != ")") = true := by
      rw [Cursor.nextMark_eq, hcur]
      simpa using hrest.1
    simp only [hnext, if_true]
    exact .of_fails (fails_mark hrest.2).bind

end Graft.Grammar
