import Graft.Grammar.Program
import Graft.Proofs.Reprint.Tokens
import Mathlib.Data.List.Forall2

/-!
# Reading a text

How a parser gets from one text to the text behind it, whatever the places of the two are.  A
parser that loops is followed from one round of the loop to a later one: `GoesOn` says that in
front of one text it does what another parser does in front of a later text.
-/

namespace Graft.Grammar

variable {α β γ : Type} {P : α → Prop} {Q : β → Prop}

/-- In front of `input` the parser does what `next b` does in front of `output`, for some `b`
with the given property. -/
def GoesOn (p : Parser α) (input output : List Char) (next : β → Parser α) (Q : β → Prop) : Prop :=
  ∀ cur : Cursor, cur.rest = input → ∃ b stop, p cur = next b stop ∧ stop.rest = output ∧ Q b

/-- The parser reads `input` up to `output`. -/
abbrev Reads (p : Parser α) (input output : List Char) (P : α → Prop) : Prop :=
  GoesOn p input output pure P

/-- The parser fails in front of `input`. -/
def Fails (p : Parser α) (input : List Char) : Prop :=
  ∀ cur : Cursor, cur.rest = input → ∃ fault, p cur = .error fault

section

variable {p q : Parser α} {input middle output : List Char}

theorem GoesOn.of_pure {a : α} (ha : P a) : Reads (pure a) input input P :=
  fun cur hcur => ⟨a, cur, rfl, hcur, ha⟩

theorem GoesOn.refl : GoesOn p input input (fun _ : Unit => p) fun _ => True :=
  fun cur hcur => ⟨⟨⟩, cur, rfl, hcur, trivial⟩

theorem bind_of_ok
    {f : α → Parser β} {cur stop : Cursor} {a : α}
    (hrun : p cur = .ok (a, stop)) :
    (p >>= f) cur = f a stop := by
  change Except.bind (p cur) _ = _
  rw [hrun]
  rfl

theorem GoesOn.bind
    {f : α → Parser β} {next : γ → Parser β} {R : γ → Prop}
    (hp : Reads p input middle P) (hf : ∀ a, P a → GoesOn (f a) middle output next R) :
    GoesOn (p >>= f) input output next R := by
  intro cur hcur
  obtain ⟨a, stop, hrun, hstop, ha⟩ := hp cur hcur
  obtain ⟨b, stop', hnext, hstop', hb⟩ := hf a ha stop hstop
  exact ⟨b, stop', (bind_of_ok hrun).trans hnext, hstop', hb⟩

theorem GoesOn.goesOn {f : α → Parser β} (hp : Reads p input output P) :
    GoesOn (p >>= f) input output f P :=
  hp.bind fun a ha cur hcur => ⟨a, cur, rfl, hcur, ha⟩

theorem GoesOn.imp
    {P' : α → Prop}
    (hp : Reads p input output P) (himp : ∀ a, P a → P' a) :
    Reads p input output P' := by
  intro cur hcur
  obtain ⟨a, stop, hrun, hstop, ha⟩ := hp cur hcur
  exact ⟨a, stop, hrun, hstop, himp a ha⟩

theorem GoesOn.map {f : α → β} (hp : Reads p input output fun a => Q (f a)) :
    Reads (f <$> p) input output Q := by
  rw [← bind_pure_comp]
  exact hp.bind fun a ha => .of_pure ha

theorem GoesOn.trans
    {next : β → Parser α} {next' : γ → Parser α} {R : γ → Prop}
    (hp : GoesOn p input middle next Q) (hnext : ∀ b, Q b → GoesOn (next b) middle output next' R) :
    GoesOn p input output next' R := by
  intro cur hcur
  obtain ⟨b, stop, hrun, hstop, hb⟩ := hp cur hcur
  obtain ⟨c, stop', hrun', hstop', hc⟩ := hnext b hb stop hstop
  exact ⟨c, stop', hrun.trans hrun', hstop', hc⟩

theorem GoesOn.get
    {f : Cursor → Parser α} {next : β → Parser α}
    (hf : ∀ cur : Cursor, cur.rest = input → GoesOn (f cur) input output next Q) :
    GoesOn (get >>= f) input output next Q := by
  intro cur hcur
  exact hf cur hcur cur hcur

theorem GoesOn.set
    {f : PUnit → Parser α} {next : β → Parser α} {stop : Cursor}
    (hstop : stop.rest = middle) (hf : GoesOn (f ⟨⟩) middle output next Q) :
    GoesOn (set stop >>= f) input output next Q := by
  intro cur _
  exact hf stop hstop

theorem GoesOn.of_set {stop : Cursor} (hstop : stop.rest = output) :
    Reads (MonadStateOf.set stop : Parser PUnit) input output fun _ => True :=
  fun _ _ => ⟨⟨⟩, stop, rfl, hstop, trivial⟩

/-! ## Choices -/

theorem Reads.attempt (hp : Reads p input output P) :
    Reads (attempt p) input output fun result => ∃ a, result = some a ∧ P a := by
  intro cur hcur
  obtain ⟨a, stop, hrun, hstop, ha⟩ := hp cur hcur
  exact ⟨some a, stop, by rw [Grammar.attempt, hrun]; rfl, hstop, a, rfl, ha⟩

theorem Fails.attempt (hp : Fails p input) : Reads (attempt p) input input (· = none) := by
  intro cur hcur
  obtain ⟨fault, hrun⟩ := hp cur hcur
  exact ⟨none, cur, by rw [Grammar.attempt, hrun]; rfl, hcur, rfl⟩

theorem Fails.either (hp : Fails p input) (hq : Reads q input output P) :
    Reads (either p q) input output P := by
  intro cur hcur
  obtain ⟨fault, hrun⟩ := hp cur hcur
  obtain ⟨a, stop, hread, hstop, ha⟩ := hq cur hcur
  exact ⟨a, stop, by rw [Grammar.either, hrun]; exact hread, hstop, ha⟩

theorem Reads.eitherReading (hp : Reads p input output P) :
    Reads (eitherReading p q) input output P := by
  intro cur hcur
  obtain ⟨a, stop, hrun, hstop, ha⟩ := hp cur hcur
  exact ⟨a, stop, by rw [Grammar.eitherReading, hrun]; rfl, hstop, ha⟩

/-! ## Tokens -/

theorem Reads.mark {text : String} (hmark : markAt input = some (text, output)) :
    Reads (mark text) input output fun _ => True := by
  refine .get fun cur hcur => ?_
  obtain ⟨next, hfound, hnext⟩ := Cursor.exists_mark? hcur hmark
  simp only [hfound, BEq.rfl, if_true]
  exact .of_set hnext

theorem Reads.keyword {text : String} (hword : wordAt input = some (text, output)) :
    Reads (keyword text) input output fun _ => True := by
  refine .get fun cur hcur => ?_
  obtain ⟨next, hfound, hnext⟩ := Cursor.exists_word? hcur hword
  simp only [hfound, BEq.rfl, if_true]
  exact .of_set hnext

theorem Reads.hasMark {text : String} (hmark : markAt input = some (text, output)) :
    Reads (hasMark text) input output (· = true) := by
  refine .get fun cur hcur => ?_
  obtain ⟨next, hfound, hnext⟩ := Cursor.exists_mark? hcur hmark
  simp only [hfound, BEq.rfl, if_true]
  exact .set hnext (.of_pure rfl)

theorem Reads.hasMark_false {text : String} (hmark : markOf input ≠ text) :
    Reads (Grammar.hasMark text) input input (· = false) := by
  refine .get fun cur hcur => ?_
  have hnext : cur.nextMark ≠ text := by rwa [Cursor.nextMark_eq, hcur]
  cases hfound : cur.mark? with
  | none => exact .of_pure rfl
  | some found =>
      have hne : found.1 ≠ text := by simpa [Cursor.nextMark, hfound] using hnext
      simp only [beq_iff_eq, hne, if_false]
      exact .of_pure rfl

theorem Reads.hasKeyword {text : String} (hword : wordAt input = some (text, output)) :
    Reads (hasKeyword text) input output (· = true) := by
  refine .get fun cur hcur => ?_
  obtain ⟨next, hfound, hnext⟩ := Cursor.exists_word? hcur hword
  simp only [hfound, BEq.rfl, if_true]
  exact .set hnext (.of_pure rfl)

theorem Reads.hasKeyword_false {text : String} (hword : wordOf input ≠ text) :
    Reads (Grammar.hasKeyword text) input input (· = false) := by
  refine .get fun cur hcur => ?_
  have hnext : cur.nextWord ≠ text := by rwa [Cursor.nextWord_eq, hcur]
  cases hfound : cur.word? with
  | none => exact .of_pure rfl
  | some found =>
      have hne : found.1 ≠ text := by simpa [Cursor.nextWord, hfound] using hnext
      simp only [beq_iff_eq, hne, if_false]
      exact .of_pure rfl

theorem Reads.start (hskip : skipped input = output) :
    Reads start input output fun cur => cur.rest = output := by
  refine .get fun cur hcur => ?_
  have hrest : cur.skip.rest = output := by rw [Cursor.rest_skip, hcur, hskip]
  exact .set hrest (.of_pure hrest)

theorem Reads.operandStart (hfresh : isFresh input = true) :
    Reads operandStart input input fun cur => cur.rest = input := by
  refine .get fun cur hcur => ?_
  have hskip : cur.skipToOperand = cur := Cursor.skipToOperand_of_isFresh (hcur ▸ hfresh)
  rw [hskip]
  exact .set hcur (.of_pure hcur)

theorem start_of_isFresh {cur : Cursor} (hfresh : isFresh cur.rest = true) :
    Grammar.start cur = .ok (cur, cur) := by
  change Except.ok (cur.skip, cur.skip) = _
  rw [Cursor.skip_of_isFresh hfresh]

theorem operandStart_of_isFresh {cur : Cursor} (hfresh : isFresh cur.rest = true) :
    Grammar.operandStart cur = .ok (cur, cur) := by
  change Except.ok (cur.skipToOperand, cur.skipToOperand) = _
  rw [Cursor.skipToOperand_of_isFresh hfresh]

theorem Reads.lexeme
    {length? : List Char → Option Nat} {n : Nat}
    (hlength : length? input = some n) :
    Reads (lexeme length?) input (input.drop n) (· = String.ofList (input.take n)) := by
  refine .get fun cur hcur => ?_
  simp only [hcur, hlength]
  refine .set (by rw [Cursor.rest_advance, hcur]) (.of_pure ?_)
  rw [Cursor.textTo_advance, hcur]

theorem Reads.node
    {origin : Cursor} {kind : Kind} {slots : List (Field × Slot)} {P : Node → Prop}
    (hnode : ∀ span, P (.mk kind span slots)) :
    Reads (node origin kind slots) input input P :=
  .get fun _ _ => .of_pure (hnode _)

theorem Reads.newNode {origin : Cursor} {kind : Kind} {slots : List (Field × Slot)} :
    Reads (Grammar.node origin kind slots) input input fun n => ∃ span, n = .mk kind span slots :=
  .node fun span => ⟨span, rfl⟩

/-! ## Loops -/

/-- The rounds of a loop: each takes a part of the text, and the loop stops in front of
`output`. -/
inductive Rounds (more : Cursor → Bool) (p : Parser α) (R : β → α → Prop) :
    List β → List Char → List Char → Prop
  | nil {text : List Char} (hstop : ∀ cur : Cursor, cur.rest = text → more cur = false) :
      Rounds more p R [] text text
  | cons {b : β} {bs : List β} {text middle output : List Char}
      (hmore : ∀ cur : Cursor, cur.rest = text → more cur = true)
      (hread : Reads p text middle (R b)) (hlength : middle.length < text.length)
      (hrest : Rounds more p R bs middle output) : Rounds more p R (b :: bs) text output

/-- A loop that goes on does a round first. -/
theorem goesOn_repeated
    {more : Cursor → Bool} {fuel : Nat}
    (hmore : ∀ cur : Cursor, cur.rest = input → more cur = true) :
    GoesOn (repeated more p (fuel + 1)) input input (fun _ : Unit => do
      let a ← p
      let as ← repeated more p fuel
      return a :: as) fun _ => True := by
  refine .get fun cur hcur => ?_
  simp only [hmore cur hcur, if_true]
  exact .refl

theorem Rounds.repeated
    {more : Cursor → Bool} {R : β → α → Prop} {bs : List β}
    (hrounds : Rounds more p R bs input output)
    {fuel : Nat}
    (hfuel : input.length < fuel) :
    Reads (repeated more p fuel) input output (List.Forall₂ R bs) := by
  induction hrounds generalizing fuel with
  | nil hstop =>
      obtain ⟨fuel, rfl⟩ : ∃ n, fuel = n + 1 := ⟨fuel - 1, by omega⟩
      refine .get fun cur hcur => ?_
      simp only [hstop cur hcur, Bool.false_eq_true, if_false]
      exact .of_pure .nil
  | cons hmore hread hlength hrest ih =>
      obtain ⟨fuel, rfl⟩ : ∃ n, fuel = n + 1 := ⟨fuel - 1, by omega⟩
      refine (goesOn_repeated hmore).trans fun _ _ => hread.bind fun a ha => ?_
      refine (ih (by omega)).bind fun as has => ?_
      exact .of_pure (.cons ha has)

theorem Rounds.whileMore
    {more : Cursor → Bool} {R : β → α → Prop} {bs : List β}
    (hrounds : Rounds more p R bs input output) :
    Reads (whileMore more p) input output (List.Forall₂ R bs) := by
  refine .get fun cur hcur => ?_
  exact hrounds.repeated (by rw [hcur]; omega)

end

/-! ## Blanks in front -/

/-- A blank in front of the text makes no difference. -/
def Skips (p : Parser α) : Prop :=
  ∀ (place : Place) (c : Char) (rest : List Char), Text.isBlank c = true →
    p ⟨place, c :: rest⟩ = p ⟨place.after c, rest⟩

theorem GoesOn.blank
    {p : Parser α} {c : Char} {input output : List Char} {next : β → Parser α}
    (hskips : Skips p) (hc : Text.isBlank c = true) (hp : GoesOn p input output next Q) :
    GoesOn p (c :: input) output next Q := by
  rintro ⟨place, rest⟩ rfl
  rw [hskips place c input hc]
  exact hp _ rfl

theorem GoesOn.blanks
    {p : Parser α} {blanks input output : List Char} {next : β → Parser α}
    (hblanks : ∀ c ∈ blanks, Text.isBlank c = true)
    (hskips : Skips p)
    (hp : GoesOn p input output next Q) :
    GoesOn p (blanks ++ input) output next Q := by
  induction blanks with
  | nil => exact hp
  | cons c blanks ih =>
      rw [List.forall_mem_cons] at hblanks
      exact .blank hskips hblanks.1 (ih hblanks.2)

theorem skipFrom_blank
    {c : Char}
    (hc : Text.isBlank c = true)
    (markup : Bool) (place : Place) (rest : List Char) :
    skipFrom markup .blanks place (c :: rest) = skipFrom markup .blanks (place.after c) rest := by
  rw [skipFrom_blanks_cons, if_pos hc]

theorem Skips.bind {p : Parser α} {f : α → Parser β} (hp : Skips p) : Skips (p >>= f) := by
  intro place c rest hc
  change Except.bind (p ⟨place, c :: rest⟩) _ = Except.bind (p ⟨place.after c, rest⟩) _
  rw [hp place c rest hc]

theorem Skips.start : Skips start := by
  intro place c rest hc
  change Except.ok (Cursor.skip ⟨place, c :: rest⟩, Cursor.skip ⟨place, c :: rest⟩) = _
  rw [show Cursor.skip ⟨place, c :: rest⟩ = Cursor.skip ⟨place.after c, rest⟩ from
    skipFrom_blank hc false place rest]
  rfl

theorem Skips.operandStart : Skips operandStart := by
  intro place c rest hc
  change Except.ok (Cursor.skipToOperand ⟨place, c :: rest⟩,
    Cursor.skipToOperand ⟨place, c :: rest⟩) = _
  rw [show Cursor.skipToOperand ⟨place, c :: rest⟩ = Cursor.skipToOperand ⟨place.after c, rest⟩ from
    skipFrom_blank hc true place rest]
  rfl

theorem Skips.unexpected : Skips (unexpected : Parser α) := fun _ _ _ _ => rfl

end Graft.Grammar
