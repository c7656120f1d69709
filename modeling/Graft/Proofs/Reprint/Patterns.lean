import Graft.Proofs.Reprint.Nested

/-!
# Patterns and lists of parameters

A text in parentheses may be a list of expressions or a list of parameters, and a text in brackets
an array or a pattern.  Whether such a list is read as parameters or patterns is decided item by
item: an item is taken to its end, or the reading stops where the list does not go on, and then the
whole list is refused.
-/

namespace Graft

open Grammar

namespace Grammar

variable {α β : Type} {g : Productions} {tail : List Char}

/-! ## Readings that are decided -/

/-- The parser takes the text up to `output` if `like` holds.  If not, it fails or ends where `Q`
holds. -/
structure Decides (Q : List Char → Prop) (like : Prop) (p : Parser α) (input output : List Char) :
    Prop where
  reads : like → Reads p input output fun _ => True
  ends : ¬ like → Ends p input Q

namespace Decides

variable {Q : List Char → Prop} {like like' : Prop} {p : Parser α}
  {input middle output : List Char}

theorem of_reads {P : α → Prop} (hlike : like) (hp : Reads p input output P) :
    Decides Q like p input output :=
  ⟨fun _ => hp.imp fun _ _ => trivial, fun hnot => absurd hlike hnot⟩

theorem of_ends (hlike : ¬ like) (hp : Ends p input Q) : Decides Q like p input output :=
  ⟨fun h => absurd h hlike, fun _ => hp⟩

theorem of_goesOn
    {next : β → Parser α} {P : β → Prop}
    (hp : GoesOn p input middle next P) (hnext : ∀ b, P b → Decides Q like (next b) middle output) :
    Decides Q like p input output :=
  ⟨fun hlike => hp.trans fun b hb => (hnext b hb).reads hlike,
    fun hnot => .of_goesOn hp fun b hb => (hnext b hb).ends hnot⟩

/-- Behind a text that has been read. -/
theorem after
    {P : α → Prop} {f : α → Parser β}
    (hp : Reads p input middle P) (hf : ∀ a, P a → Decides Q like (f a) middle output) :
    Decides Q like (p >>= f) input output :=
  ⟨fun hlike => hp.bind fun a ha => (hf a ha).reads hlike,
    fun hnot => .after hp fun a ha => (hf a ha).ends hnot⟩

/-- What follows takes no text. -/
theorem bind
    {f : α → Parser β}
    (hp : Decides Q like p input output) (hf : ∀ a rest, Reads (f a) rest rest fun _ => True) :
    Decides Q like (p >>= f) input output where
  reads hlike := (hp.reads hlike).bind fun a _ => hf a output
  ends hnot := (hp.ends hnot).bind fun a rest hrest => by
    refine (Ends.of_reads (hf a rest)).imp ?_
    rintro _ rfl
    exact hrest

/-- One part after the other; the first that is not taken makes the whole fail. -/
theorem andThen
    {f : α → Parser β}
    (hp : Decides (fun _ => False) like p input middle)
    (hf : ∀ a, Decides (fun _ => False) like' (f a) middle output) :
    Decides (fun _ => False) (like ∧ like') (p >>= f) input output where
  reads hlike := (hp.reads hlike.1).bind fun a _ => (hf a).reads hlike.2
  ends hnot := by
    by_cases hlike : like
    · exact .after (hp.reads hlike) fun a _ => (hf a).ends fun hlike' => hnot ⟨hlike, hlike'⟩
    · exact (hp.ends hlike).bind fun _ _ => False.elim

theorem thenReads
    {f : α → Parser β}
    (hp : Decides (fun _ => False) like p input middle)
    (hf : ∀ a, Reads (f a) middle output fun _ => True) :
    Decides (fun _ => False) like (p >>= f) input output := by
  rw [← and_true like]
  exact hp.andThen fun a => .of_reads trivial (hf a)

theorem blanks
    {blanks : List Char}
    (hskips : Skips p)
    (hblanks : ∀ c ∈ blanks, Text.isBlank c = true)
    (hp : Decides Q like p input output) :
    Decides Q like p (blanks ++ input) output :=
  ⟨fun hlike => .blanks hblanks hskips (hp.reads hlike),
    fun hnot => .blanks hskips hblanks (hp.ends hnot)⟩

theorem weaken
    {Q' : List Char → Prop}
    (hp : Decides Q like p input output) (hQ : ∀ rest, Q rest → Q' rest) :
    Decides Q' like p input output :=
  ⟨hp.reads, fun hnot => (hp.ends hnot).imp hQ⟩

theorem ends_of_output (hp : Decides Q like p input output) (houtput : like → Q output) :
    Ends p input Q := by
  by_cases hlike : like
  · refine (Ends.of_reads (hp.reads hlike)).imp ?_
    rintro _ rfl
    exact houtput hlike
  · exact hp.ends hlike

end Decides

/-! ## Patterns -/

/-- A pattern without dots in front. -/
def assignable (g : Productions) : Parser Node := do
  let next := (← get).nextMark
  if next == "[" then arrayPattern g
  else if next == "\x7b" then objectPattern g
  else target g

theorem pattern_eq :
    pattern g = (do
      let origin ← start
      if ← hasMark "..." then
        let inner ← assignable g
        node origin .restElement [(.argument, .node inner)]
      else assignable g) :=
  rfl

theorem goesOn_assignable_target {text : List Char} (hmark : markOf text ∉ ["[", "\x7b"]) :
    GoesOn (assignable g) text text (fun _ : Unit => target g) fun _ => True := by
  simp only [List.mem_cons, List.not_mem_nil, or_false, not_or] at hmark
  refine .get fun cur hcur => ?_
  have hnext : cur.nextMark = markOf text := by rw [Cursor.nextMark_eq, hcur]
  simp only [hnext, beq_iff_eq, hmark, if_false]
  exact .refl

theorem goesOn_assignable_array {text : List Char} :
    GoesOn (assignable g) ('[' :: text) ('[' :: text) (fun _ : Unit => arrayPattern g)
      fun _ => True := by
  refine .get fun cur hcur => ?_
  have hnext : cur.nextMark = "[" := by rw [Cursor.nextMark_eq, hcur, markOf_eq (markAt_bracket _)]
  simp only [hnext, BEq.rfl, if_true]
  exact .refl

section

variable {Q : List Char → Prop} {like : Prop} {text output : List Char}
  (hread : Decides Q like (assignable g) text output)

include hread

theorem decides_pattern (hfresh : isFresh text = true) (hdots : markOf text ≠ "...") :
    Decides Q like (pattern g) text output := by
  rw [pattern_eq]
  refine .after (Reads.start (skipped_of_isFresh hfresh)) fun origin _ => ?_
  refine .after (Reads.hasMark_false hdots) fun found hfound => ?_
  rw [hfound]
  exact hread

theorem decides_pattern_rest : Decides Q like (pattern g) ("...".toList ++ text) output := by
  rw [pattern_eq]
  refine .after (Reads.start (skipped_of_isFresh rfl)) fun origin _ => ?_
  refine .after (Reads.hasMark (markAt_dots text)) fun found hfound => ?_
  rw [hfound]
  exact hread.bind fun _ _ => Reads.node fun _ => trivial

end

/-! ## Default values -/

/-- A pattern, perhaps with a default value, and what is made of the two. -/
def defaulted (g : Productions) (finish : Node → Option Operand → Parser α) : Parser α := do
  let left ← g.pattern
  if ← hasMark "=" then
    let right ← g.expression false
    finish left (some right)
  else finish left none

theorem parameter_eq :
    parameter g = (do
      let origin ← start
      defaulted g fun left right => right.elim (pure left) fun right =>
        node origin .assignmentPattern [(.left, .node left), (.right, .node right.node)]) :=
  rfl

/-- What is made of a parameter takes no text. -/
def Finishes (finish : Node → Option Operand → Parser α) : Prop :=
  ∀ left right text, Reads (finish left right) text text fun _ => True

/-- Neither a list nor a default value goes on with the text. -/
def Missed (text : List Char) : Prop := markOf text ∉ [",", ")", "]", "="]

theorem Missed.of_mark
    {text after : List Char} {mark : String}
    (hmark : markAt text = some (mark, after)) (hne : mark ∉ [",", ")", "]", "="]) :
    Missed text := by
  rwa [Missed, markOf_eq hmark]

section

variable {finish : Node → Option Operand → Parser α} (hfinish : Finishes finish)
  {text rest : List Char}

include hfinish

theorem ends_defaulted (hends : Ends g.pattern text Missed) :
    Ends (defaulted g finish) text Missed := by
  refine hends.bind fun left rest hrest => ?_
  have hequal : markOf rest ≠ "=" := by
    simp only [Missed, List.mem_cons, not_or] at hrest
    exact hrest.2.2.2.1
  refine .after (Reads.hasMark_false hequal) fun found hfound => ?_
  rw [hfound]
  refine (Ends.of_reads (hfinish left none rest)).imp ?_
  rintro _ rfl
  exact hrest

theorem decides_defaulted
    {like : Prop}
    (hpattern : Decides Missed like g.pattern text rest)
    (hrest : rest = tail ∧ markOf rest ≠ "=" ∨ ∃ after, markAt rest = some ("=", after) ∧
      Reads (g.expression false) after tail fun _ => True) :
    Decides Missed like (defaulted g finish) text tail where
  reads hlike := by
    refine (hpattern.reads hlike).bind fun left _ => ?_
    rcases hrest with ⟨rfl, hequal⟩ | ⟨after, hequal, hvalue⟩
    · refine (Reads.hasMark_false hequal).bind fun found hfound => ?_
      rw [hfound]
      exact hfinish left none rest
    · refine (Reads.hasMark hequal).bind fun found hfound => ?_
      rw [hfound]
      exact hvalue.bind fun right _ => hfinish left (some right) tail
  ends hnot := ends_defaulted hfinish (hpattern.ends hnot)

end

/-! ## Lists -/

/-- The comma behind an item, unless the list is closed there. -/
def separator (closing : String) : Parser Unit := do
  if (← get).nextMark != closing then mark ","

/-- One item of a list and the comma behind it. -/
def listRound (item : Parser α) (closing : String) : Parser α := do
  let a ← item
  separator closing
  return a

/-- In front of the text and of what may follow an item, the parser takes the text if `like`
holds, and otherwise it stops where no list goes on. -/
def DecidesItem (like : Prop) (p : Parser α) (text : List Char) : Prop :=
  ∀ tail, Stops 0 tail → Decides Missed like p (text ++ tail) tail

/-- A round of the loop over a list takes the text and the comma behind it if `like` holds, and
otherwise it fails. -/
structure DecidesRound (closer : Char × String) (like : Prop) (round : Parser α)
    (text : List Char) : Prop where
  comma : ∀ rest, Decides (fun _ => False) like round (text ++ ',' :: rest) rest
  close : ∀ rest, Decides (fun _ => False) like round (text ++ closer.1 :: rest) (closer.1 :: rest)

section

variable {closer : Char × String} (hcloser : closer ∈ listClosers)

include hcloser

theorem reads_separator_comma (rest : List Char) :
    Reads (separator closer.2) (',' :: rest) rest fun _ => True := by
  have hmark := markAt_closer (by decide : (',', ",") ∈ closers) rest
  refine .get fun cur hcur => ?_
  have hnext : (cur.nextMark != closer.2) = true := by
    rw [Cursor.nextMark_eq, hcur, markOf_eq hmark]
    simpa using (listClosers_facts _ hcloser).2.1.symm
  simp only [hnext, if_true]
  exact Reads.mark hmark

theorem reads_separator_close (rest : List Char) :
    Reads (separator closer.2) (closer.1 :: rest) (closer.1 :: rest) fun _ => True := by
  refine .get fun cur hcur => ?_
  have hnext : cur.nextMark = closer.2 := by
    rw [Cursor.nextMark_eq, hcur, markOf_eq (markAt_closer (listClosers_facts _ hcloser).1 rest)]
  simp only [hnext, bne_self_eq_false, Bool.false_eq_true, if_false]
  exact .of_pure trivial

theorem fails_separator {text : List Char} (htext : Missed text) :
    Fails (separator closer.2) text := by
  have hclosing : closer.2 ∈ [",", ")", "]"] := (listClosers_facts _ hcloser).2.2
  have hne : markOf text ≠ closer.2 ∧ markOf text ≠ "," := by
    simp only [Missed, List.mem_cons, List.not_mem_nil, or_false, not_or] at htext hclosing
    refine ⟨fun heq => ?_, htext.1⟩
    rw [← heq] at hclosing
    rcases hclosing with hmark | hmark | hmark
    · exact htext.1 hmark
    · exact htext.2.1 hmark
    · exact htext.2.2.1 hmark
  refine Ends.fails (.get fun cur hcur => ?_)
  have hnext : (cur.nextMark != closer.2) = true := by
    rw [Cursor.nextMark_eq, hcur]
    simpa using hne.1
  simp only [hnext, if_true]
  exact .of_fails (fails_mark hne.2)

theorem decidesRound_list
    {like : Prop} {item : Parser α} {text : List Char}
    (hitem : DecidesItem like item text) :
    DecidesRound closer like (listRound item closer.2) text := by
  have hround : ∀ tail rest, Stops 0 tail →
      Reads (separator closer.2) tail rest (fun _ => True) →
        Decides (fun _ => False) like (listRound item closer.2) (text ++ tail) rest := by
    refine fun tail rest htail hread => ⟨fun hlike => ?_, fun hnot => ?_⟩
    · exact ((hitem tail htail).reads hlike).bind fun a _ => hread.bind fun _ _ => .of_pure trivial
    · exact ((hitem tail htail).ends hnot).bind fun _ _ hrest =>
        .of_fails (fails_separator hcloser hrest).bind
  exact ⟨fun rest => hround _ _ (.closer (by decide : (',', ",") ∈ closers) 0 rest)
      (reads_separator_comma hcloser rest),
    fun rest => hround _ _ (.closer (listClosers_facts _ hcloser).1 0 rest)
      (reads_separator_close hcloser rest)⟩

/-- What stands behind an item of a list: the other items and the closing bracket. -/
def listRest (closer : Char × String) (tail : List Char) : List (List Char) → List Char
  | [] => closer.1 :: tail
  | text :: texts => ',' :: ' ' :: (text ++ listRest closer tail texts)

omit hcloser in
theorem joined_append_closer (text : List Char) (texts : List (List Char)) :
    joined (text :: texts) ++ closer.1 :: tail = text ++ listRest closer tail texts := by
  have hrest : (texts.flatMap fun text => ',' :: ' ' :: text) ++ closer.1 :: tail =
      listRest closer tail texts := by
    induction texts with
    | nil => rfl
    | cons next texts ih => simp [listRest, ← ih]
  rw [joined, List.append_assoc, hrest]

theorem stops_listRest (texts : List (List Char)) : Stops 0 (listRest closer tail texts) := by
  cases texts with
  | nil => exact .closer (listClosers_facts _ hcloser).1 0 tail
  | cons text texts => exact .closer (by decide : (',', ",") ∈ closers) 0 _

theorem reads_repeated_close {round : Parser α} (fuel : Nat) :
    Reads (repeated (fun cur => cur.nextMark != closer.2) round fuel) (closer.1 :: tail)
      (closer.1 :: tail) fun _ => True := by
  cases fuel with
  | zero => exact .of_pure trivial
  | succ fuel =>
      refine .get fun cur hcur => ?_
      have hnext : cur.nextMark = closer.2 := by
        rw [Cursor.nextMark_eq, hcur,
          markOf_eq (markAt_closer (listClosers_facts _ hcloser).1 tail)]
      simp only [hnext, bne_self_eq_false, Bool.false_eq_true, if_false]
      exact .of_pure trivial

/-- In front of an item, and of blanks in front of it, the list is not closed. -/
theorem more_of_notMem
    {lead text : List Char} {cur : Cursor}
    (hlead : ∀ c ∈ lead, Text.isBlank c = true)
    (hmark : markOf text ∉ [",", ")", "]"])
    (hcur : cur.rest = lead ++ text) :
    (cur.nextMark != closer.2) = true := by
  rw [Cursor.nextMark_eq, hcur, markOf_blanks hlead, bne_iff_ne]
  intro heq
  exact hmark (heq ▸ (listClosers_facts _ hcloser).2.2)

variable {round : Parser α} {like : β → Prop} {text : β → List Char} (hskips : Skips round)

include hskips

theorem decides_repeated
    {lead : List Char} {b : β} {bs : List β} {fuel : Nat}
    (hlead : ∀ c ∈ lead, Text.isBlank c = true)
    (hmark : ∀ b' ∈ b :: bs, ∀ rest, endsName rest = true →
      markOf (text b' ++ rest) ∉ [",", ")", "]"])
    (hrounds : ∀ b' ∈ b :: bs, DecidesRound closer (like b') round (text b'))
    (hfuel : (lead ++ (text b ++ listRest closer tail (bs.map text))).length < fuel) :
    Decides (fun _ => False) (∀ b' ∈ b :: bs, like b')
      (repeated (fun cur => cur.nextMark != closer.2) round fuel)
      (lead ++ (text b ++ listRest closer tail (bs.map text))) (closer.1 :: tail) := by
  -- What is in front of the item is blank, so that a comma leaves the loop at the next one.
  induction bs generalizing lead b fuel with
  | nil =>
      obtain ⟨fuel, rfl⟩ : ∃ k, fuel = k + 1 := ⟨fuel - 1, by omega⟩
      rw [List.forall_mem_singleton] at hmark hrounds ⊢
      have hmore := hmark _ (@stops_listRest tail closer hcloser []).ends
      refine .of_goesOn (goesOn_repeated fun cur => more_of_notMem hcloser hlead hmore)
        fun _ _ => .blanks (.bind hskips) hlead ((hrounds.close tail).thenReads fun a => ?_)
      exact (reads_repeated_close hcloser fuel).bind fun _ _ => .of_pure trivial
  | cons next bs ih =>
      obtain ⟨fuel, rfl⟩ : ∃ k, fuel = k + 1 := ⟨fuel - 1, by omega⟩
      rw [List.forall_mem_cons] at hmark hrounds ⊢
      have hmore := hmark.1 _ (@stops_listRest tail closer hcloser ((next :: bs).map text)).ends
      refine .of_goesOn (goesOn_repeated fun cur => more_of_notMem hcloser hlead hmore)
        fun _ _ => .blanks (.bind hskips) hlead ((hrounds.1.comma _).andThen fun a => ?_)
      refine .bind (@ih [' '] next fuel isBlank_of_mem_space hmark.2 hrounds.2 ?_)
        fun _ _ => .of_pure trivial
      simp only [List.map_cons, listRest, List.length_append, List.length_cons,
        List.length_nil] at hfuel ⊢
      omega

/-- A list is taken if all its items are, and refused otherwise. -/
theorem decides_list
    {bs : List β}
    (hmark : ∀ b ∈ bs, ∀ rest, endsName rest = true → markOf (text b ++ rest) ∉ [",", ")", "]"])
    (hrounds : ∀ b ∈ bs, DecidesRound closer (like b) round (text b)) :
    Decides (fun _ => False) (∀ b ∈ bs, like b)
      (whileMore (fun cur => cur.nextMark != closer.2) round)
      (joined (bs.map text) ++ closer.1 :: tail) (closer.1 :: tail) := by
  cases bs with
  | nil => exact .of_reads (by simp) (.get fun cur _ => reads_repeated_close hcloser _)
  | cons b bs =>
      rw [List.map_cons, joined_append_closer]
      refine ⟨fun hlike => .get fun cur hcur => ?_, fun hnot => .get fun cur hcur => ?_⟩
      all_goals
        have hloop := @decides_repeated α β tail closer hcloser round like text hskips [] b bs
          (cur.rest.length + 1) (by simp) hmark hrounds (by rw [hcur]; exact Nat.lt_succ_self _)
      · exact hloop.reads hlike
      · exact hloop.ends hnot

end

/-! ### Whole lists -/

theorem parameters_eq :
    parameters g = (do
      mark "("
      let list ← whileMore (fun cur => cur.nextMark != ")") (listRound (parameter g) ")")
      mark ")"
      return list) := by
  have hround : listRound (parameter g) ")" = (do
      let p ← parameter g
      if (← get).nextMark != ")" then mark ","
      return p) := by
    unfold listRound separator
    congr 1
    funext p
    rw [bind_assoc]
    congr 1
    funext cur
    split <;> rfl
  rw [hround]
  rfl

/-- One element of a pattern and the comma behind it. -/
def elementRound (g : Productions) : Parser Unit := do
  if !(← hasMark ",") then
    patternElement g
    separator "]"

theorem arrayPattern_eq :
    arrayPattern g = (do
      let origin ← start
      mark "["
      let _ ← whileMore (fun cur => cur.nextMark != "]") (elementRound g)
      mark "]"
      rawNode origin) :=
  rfl

theorem goesOn_elementRound {text : List Char} (hcomma : markOf text ≠ ",") :
    GoesOn (elementRound g) text text (fun _ : Unit => listRound (patternElement g) "]")
      fun _ => True := by
  refine (Reads.hasMark_false hcomma).bind fun found hfound => ?_
  have hround : listRound (patternElement g) "]" = (do
      patternElement g
      separator "]") := by
    unfold listRound
    exact congrArg _ (funext fun _ => bind_pure _)
  rw [hfound, hround]
  exact .refl

theorem Cursor.mark?_blank
    {c : Char}
    (hc : Text.isBlank c = true)
    (place : Place) (rest : List Char) :
    Cursor.mark? ⟨place, c :: rest⟩ = Cursor.mark? ⟨place.after c, rest⟩ := by
  have hskip : Cursor.skip ⟨place, c :: rest⟩ = Cursor.skip ⟨place.after c, rest⟩ :=
    skipFrom_blank hc false place rest
  rw [Cursor.mark?, hskip, Cursor.mark?]

theorem skips_elementRound (hskips : Skips g.pattern) : Skips (elementRound g) := by
  have hinner : Skips (do
      patternElement g
      separator "]") := .bind (.bind hskips)
  have hrun : ∀ cur : Cursor, elementRound g cur =
      cur.mark?.elim ((do
        patternElement g
        separator "]" : Parser Unit) cur) fun found =>
          if found.1 == "," then .ok (⟨⟩, found.2) else (do
            patternElement g
            separator "]" : Parser Unit) cur := by
    intro cur
    unfold elementRound hasMark
    rw [bind_assoc, get_bind_apply]
    cases cur.mark? with
    | none => rfl
    | some found =>
        simp only [Option.elim_some]
        split <;> rfl
  intro place c rest hc
  rw [hrun, hrun, Cursor.mark?_blank hc, hinner place c rest hc]

section

variable {like : β → Prop} {text : β → List Char} {bs : List β}
  (hmark : ∀ b ∈ bs, ∀ rest, endsName rest = true → markOf (text b ++ rest) ∉ [",", ")", "]"])

include hmark

theorem decides_parameters (hitems : ∀ b ∈ bs, DecidesItem (like b) (parameter g) (text b)) :
    Decides (fun _ => False) (∀ b ∈ bs, like b) (parameters g)
      ('(' :: (joined (bs.map text) ++ ')' :: tail)) tail := by
  have hcloser : (')', ")") ∈ listClosers := by decide
  rw [parameters_eq]
  refine .after (Reads.mark (markAt_open _)) fun _ _ => ?_
  refine (decides_list hcloser (.bind (.bind .start)) hmark
    fun b hb => decidesRound_list hcloser (hitems b hb)).thenReads fun _ => ?_
  exact (Reads.mark (markAt_closer (by decide) tail)).bind fun _ _ => .of_pure trivial

theorem decides_arrayPattern
    (hskips : Skips g.pattern)
    (hitems : ∀ b ∈ bs, DecidesItem (like b) (patternElement g) (text b)) :
    Decides (fun _ => False) (∀ b ∈ bs, like b) (arrayPattern g)
      ('[' :: (joined (bs.map text) ++ ']' :: tail)) tail := by
  have hcloser : (']', "]") ∈ listClosers := by decide
  rw [arrayPattern_eq]
  refine .after (Reads.start (skipped_of_isFresh rfl)) fun origin _ => ?_
  refine .after (Reads.mark (markAt_bracket _)) fun _ _ => ?_
  refine (decides_list hcloser (skips_elementRound hskips) hmark fun b hb => ?_).thenReads
    fun _ => ?_
  · have hround := decidesRound_list hcloser (hitems b hb)
    have hcomma : ∀ rest, endsName rest = true → markOf (text b ++ rest) ≠ "," :=
      fun rest hrest heq => hmark b hb rest hrest (by simp [heq])
    exact ⟨fun rest => .of_goesOn (goesOn_elementRound (hcomma _ rfl)) fun _ _ => hround.comma rest,
      fun rest => .of_goesOn (goesOn_elementRound (hcomma _ rfl)) fun _ _ => hround.close rest⟩
  · refine (Reads.mark (markAt_closer (by decide) tail)).bind fun _ _ => ?_
    exact .get fun _ _ => .of_pure trivial

end

/-! ## Targets -/

section

variable {calls integer lineEnds : Bool} {text part : List Char} {n : Node}

theorem Chains.fails_target
    (hchain : Chains g true integer text n)
    (hkind : ¬(n.kind = .identifier ∨ n.kind = .memberExpression))
    (htail : ChainFollows integer tail)
    (hstops : suffixStops true tail) :
    Fails (target g) (text ++ tail) := by
  unfold target
  rw [← bind_assoc]
  refine .after (hchain.reads htail hstops) fun whole hwhole => ?_
  have hform : ¬(whole.form = .name ∨ whole.form = .member) :=
    fun hform => hkind (hwhole.kind hform)
  simp only [hform, if_false]
  exact Ends.fails .of_unexpected

/-- A chain that one more part extends, and nothing behind it. -/
theorem Chains.reads_suffix
    {P : Operand → Prop}
    (hchain : Chains g calls integer text n)
    (hpart : part ≠ [])
    (hfollows : ChainFollows integer (part ++ tail))
    (hread : ∀ o, Reads (suffix? g calls lineEnds o) (part ++ tail) tail fun found =>
      ∃ longer, found = some longer ∧ P longer)
    (hstops : suffixStops calls tail) :
    Reads (primary g lineEnds >>= suffixed g calls lineEnds) (text ++ (part ++ tail)) tail P := by
  refine (hchain lineEnds (part ++ tail) hfollows).trans fun state hstate => ?_
  obtain ⟨fuel, o⟩ := state
  obtain ⟨hfuel, -⟩ := hstate
  have hpositive := List.length_pos_of_ne_nil hpart
  rw [List.length_append] at hfuel
  obtain ⟨fuel, rfl⟩ : ∃ k, fuel = k + 2 := ⟨fuel - 2, by simp only at hfuel; omega⟩
  refine (hread o).bind fun found hfound => ?_
  obtain ⟨longer, rfl, hlonger⟩ := hfound
  refine (reads_suffix_none hstops).bind fun found hnone => ?_
  rw [hnone]
  exact .of_pure hlonger

theorem reads_target_of_form
    {text output : List Char}
    (hread : Reads (primary g false >>= suffixed g true false) text output fun o =>
      o.form = .name ∨ o.form = .member) :
    Reads (target g) text output fun _ => True := by
  unfold target
  rw [← bind_assoc]
  refine hread.bind fun whole hwhole => ?_
  simp only [hwhole, if_true]
  exact .of_pure trivial

theorem reads_target_variable
    {name : String}
    (hname : isVariable name = true) (htail : Follows tail) (hstops : suffixStops true tail) :
    Reads (target g) (name.toList ++ tail) tail fun _ => True := by
  refine reads_target_of_form ((reads_primary_variable hname htail).bind fun o ho => ?_)
  refine (reads_suffixed_none hstops).imp ?_
  rintro _ rfl
  exact .inl ho.2

end

end Grammar

open Grammar

variable {style : Style} {level d : Nat} {n : Node}

theorem Node.Rereads.fails_target_group
    {tail : List Char}
    (hn : n.Rereads style)
    (hd : 2 * (n.text style level).length + 4 ≤ d)
    (htail : Follows tail)
    (hstops : suffixStops true tail) :
    Fails (target (depth d)) ('(' :: (n.text style level ++ [')']) ++ tail) := by
  have hinner := hn.expressions level d false (')' :: tail) (by omega)
    (.closer (by decide : (')', ")") ∈ closers) 0 tail)
    (by rw [markOf_eq (markAt_closer (by decide : (')', ")") ∈ closers) tail)]; decide)
  rw [List.cons_append, List.append_assoc]
  refine .after (reads_primary_group htail.noArrow hinner) fun o ho => ?_
  refine .after (reads_suffixed_none hstops) fun whole hwhole => ?_
  have hform : ¬(whole.form = .name ∨ whole.form = .member) := by
    rw [hwhole, ho.2]
    decide
  simp only [hform, if_false]
  exact Ends.fails .of_unexpected

end Graft
