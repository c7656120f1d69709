import Graft.Grammar.Program
import Graft.Proofs.Compile
import Graft.Proofs.Reprint.Tokens

/-!
# Parsers move forward

Where a parser leaves the cursor.  `From lo p Q` says what is known of every result of `p` and of
the offset behind it when `p` starts at `lo` or later.  Blanks and comments never take the cursor
back, and a token takes it on.
-/

namespace Graft.Grammar

/-! ## Cursors -/

theorem Place.offset_lt_after (place : Place) (c : Char) :
    place.offset < (place.after c).offset := by
  unfold Place.after
  split
  · exact Nat.lt_succ_self _
  · exact Nat.lt_add_of_pos_right c.utf8Size_pos

theorem offset_le_moveOver (n : Nat) (place : Place) (text : List Char) :
    place.offset ≤ (Cursor.moveOver n place text).offset := by
  induction n generalizing place text with
  | zero => exact Nat.le_refl _
  | succ n ih =>
      cases text with
      | nil => exact Nat.le_refl _
      | cons c rest => exact Nat.le_trans (Nat.le_of_lt (place.offset_lt_after c)) (ih _ rest)

theorem Cursor.offset_le_advance (cur : Cursor) (n : Nat) : cur.offset ≤ (cur.advance n).offset :=
  offset_le_moveOver n cur.place cur.rest

theorem Cursor.le_offset_advance
    {lo : Nat} {cur : Cursor}
    (hcur : lo ≤ cur.offset)
    (n : Nat) :
    lo ≤ (cur.advance n).offset :=
  Nat.le_trans hcur (cur.offset_le_advance n)

theorem Cursor.offset_lt_advance
    {cur : Cursor} {n : Nat}
    (hrest : cur.rest ≠ []) (hn : n ≠ 0) :
    cur.offset < (cur.advance n).offset := by
  obtain ⟨place, text⟩ := cur
  cases text with
  | nil => exact absurd rfl hrest
  | cons c rest =>
      cases n with
      | zero => exact absurd rfl hn
      | succ n => exact Nat.lt_of_lt_of_le (place.offset_lt_after c) (offset_le_moveOver n _ rest)

theorem Place.le_offset_after
    {lo : Nat} {place : Place}
    (hplace : lo ≤ place.offset)
    (c : Char) :
    lo ≤ (place.after c).offset :=
  Nat.le_trans hplace (Nat.le_of_lt (place.offset_lt_after c))

/-- Where blanks and comments are skipped, the cursor does not go back behind its place, nor
behind the start of a comment that is being read. -/
theorem le_offset_skipFrom
    {lo : Nat} {markup : Bool} {mode : TriviaMode} {place : Place} {text : List Char}
    (hplace : lo ≤ place.offset)
    (hopened : ∀ opened, mode = .blockComment opened → lo ≤ opened.offset) :
    lo ≤ (skipFrom markup mode place text).offset := by
  fun_induction skipFrom markup mode place text
  case case1 opened _ => exact hopened opened rfl
  case case2 | case6 | case8 => exact hplace
  case case3 ih | case4 ih | case7 ih | case9 ih | case10 ih =>
    exact ih (Place.le_offset_after hplace _) (by simp)
  case case5 ih =>
    refine ih (Place.le_offset_after (Place.le_offset_after hplace _) _) fun opened hcomment => ?_
    cases hcomment
    exact hplace
  case case11 ih => exact ih (Place.le_offset_after (Place.le_offset_after hplace _) _) (by simp)
  case case12 ih => exact ih (Place.le_offset_after hplace _) hopened

namespace Cursor

theorem offset_le_skip (cur : Cursor) : cur.offset ≤ cur.skip.offset :=
  le_offset_skipFrom (Nat.le_refl _) (by simp)

theorem offset_le_skipToOperand (cur : Cursor) : cur.offset ≤ cur.skipToOperand.offset :=
  le_offset_skipFrom (Nat.le_refl _) (by simp)

/-- Skipping goes over the blanks in front at least. -/
theorem offset_blanks_le_skip (cur : Cursor) :
    (cur.advance (cur.rest.takeWhile Text.isBlank).length).offset ≤ cur.skip.offset := by
  obtain ⟨place, text⟩ := cur
  unfold advance skip
  induction text generalizing place with
  | nil => exact le_offset_skipFrom (Nat.le_refl _) (by simp)
  | cons c rest ih =>
      by_cases hblank : Text.isBlank c = true
      · dsimp only
        rw [List.takeWhile_cons_of_pos hblank, skipFrom_blanks_cons, if_pos hblank]
        exact ih (place.after c)
      · dsimp only
        rw [List.takeWhile_cons_of_neg hblank]
        exact le_offset_skipFrom (Nat.le_refl _) (by simp)

theorem offset_le_of_findEnd
    {afterOperand : Bool} {fuel : Nat} {cur stop : Cursor}
    (hend : findEnd afterOperand fuel cur = some stop) :
    cur.offset ≤ stop.offset := by
  induction fuel generalizing cur with
  | zero => cases hend
  | succ fuel ih =>
      unfold findEnd at hend
      split at hend
      · cases hend
        exact Nat.le_refl _
      · dsimp only at hend
        split at hend
        · exact Nat.le_trans (offset_le_advance cur _)
            (Nat.le_trans (offset_le_advance _ _) (ih hend))
        · cases hend

theorem offset_le_of_automaticEnd?
    {afterOperand : Bool} {cur stop : Cursor}
    (hend : cur.automaticEnd? afterOperand = some stop) :
    cur.offset ≤ stop.offset :=
  offset_le_of_findEnd hend

end Cursor

/-! ## Lexemes -/

/-- No lexeme of the class is empty. -/
def Solid (length? : List Char → Option Nat) : Prop :=
  ∀ text n, length? text = some n → text ≠ [] ∧ n ≠ 0

theorem solid_nameLength? : Solid nameLength? := by
  intro text n hn
  unfold nameLength? at hn
  split at hn
  · cases hn
  · split at hn
    · cases hn
    · split at hn
      · cases hn
      next hlength =>
        cases hn
        exact ⟨nofun, hlength⟩

theorem solid_stringLength? : Solid stringLength? := by
  intro text n hn
  unfold stringLength? at hn
  split at hn
  · split at hn
    · obtain ⟨tail, -, rfl⟩ := Option.map_eq_some_iff.mp hn
      exact ⟨nofun, by omega⟩
    · cases hn
  · cases hn

theorem solid_regexLength? : Solid regexLength? := by
  intro text n hn
  unfold regexLength? at hn
  split at hn
  · split at hn
    · split at hn
      · cases hn
      · cases hn
        exact ⟨nofun, by omega⟩
    · cases hn
  · cases hn

theorem solid_decimalLength? : Solid decimalLength? := by
  intro text n hn
  unfold decimalLength? at hn
  split at hn
  · split at hn
    · split at hn
      · cases hn
      · cases hn
        exact ⟨nofun, by omega⟩
    · cases hn
  next hdigits =>
    have htext : text ≠ [] := by
      rintro rfl
      exact hdigits rfl
    have hpositive : digitsLength Char.isDigit text ≠ 0 := hdigits
    refine ⟨htext, ?_⟩
    dsimp only at hn
    split at hn
    · cases hn
      omega
    · split at hn
      · split at hn
        · cases hn
          omega
        · cases hn
          omega
      · cases hn
        exact hpositive

theorem solid_numberLength? : Solid numberLength? := by
  intro text n hn
  unfold numberLength? at hn
  split at hn
  · split at hn
    · split at hn
      · exact solid_decimalLength? _ _ hn
      · cases hn
        exact ⟨nofun, by omega⟩
    · exact solid_decimalLength? _ _ hn
  · exact solid_decimalLength? _ _ hn

theorem punctuator?_eq_some
    {text : List Char} {mark : String}
    (hmark : punctuator? text = some mark) :
    text ≠ [] ∧ mark.length ≠ 0 := by
  have hlengths : punctuators.all (fun mark => mark.length != 0) = true := by decide
  unfold punctuator? at hmark
  split at hmark
  · split at hmark
    · cases hmark
      exact ⟨nofun, by decide⟩
    · cases hmark
      exact ⟨nofun, by decide⟩
  · have hlength : mark.length ≠ 0 := by
      simpa using List.all_eq_true.mp hlengths mark (List.mem_of_find?_eq_some hmark)
    refine ⟨?_, hlength⟩
    rintro rfl
    have hfront : startsWith [] mark = true := List.find?_some hmark
    have hempty := List.prefix_nil.mp (List.isPrefixOf_iff_prefix.mp hfront)
    rw [← String.length_toList, hempty] at hlength
    exact hlength rfl

namespace Cursor

theorem offset_lt_of_word?
    {cur next : Cursor} {word : String}
    (hword : cur.word? = some (word, next)) :
    cur.offset < next.offset := by
  obtain ⟨n, hn, hnext⟩ := Option.map_eq_some_iff.mp hword
  cases hnext
  obtain ⟨hrest, hpositive⟩ := solid_nameLength? _ _ hn
  exact Nat.lt_of_le_of_lt cur.offset_le_skip (offset_lt_advance hrest hpositive)

theorem offset_lt_of_mark?
    {cur next : Cursor} {mark : String}
    (hmark : cur.mark? = some (mark, next)) :
    cur.offset < next.offset := by
  obtain ⟨found, hfound, hnext⟩ := Option.map_eq_some_iff.mp hmark
  cases hnext
  obtain ⟨hrest, hpositive⟩ := punctuator?_eq_some hfound
  exact Nat.lt_of_le_of_lt cur.offset_le_skip (offset_lt_advance hrest hpositive)

end Cursor

/-! ## Parsers -/

/-- Every result of the parser at a place has the property, together with the offset behind it. -/
def At {α : Type} (cur : Cursor) (p : Parser α) (Q : α → Nat → Prop) : Prop :=
  ∀ a next, p cur = .ok (a, next) → Q a next.offset

/-- The same at every place from an offset on. -/
def From {α : Type} (lo : Nat) (p : Parser α) (Q : α → Nat → Prop) : Prop :=
  ∀ cur, lo ≤ cur.offset → At cur p Q

theorem At.bind
    {α β : Type} {P : α → Nat → Prop} {Q : β → Nat → Prop} {p : Parser α} {f : α → Parser β}
    {cur : Cursor}
    (hp : At cur p P) (hf : ∀ a mid, P a mid → From mid (f a) Q) :
    At cur (p >>= f) Q := by
  intro b next hrun
  obtain ⟨⟨a, mid⟩, ha, hb⟩ := bind_eq_ok_iff.mp hrun
  exact hf a _ (hp a mid ha) mid (Nat.le_refl _) b next hb

theorem At.get
    {β : Type} {Q : β → Nat → Prop} {cur : Cursor} {f : Cursor → Parser β}
    (hf : At cur (f cur) Q) :
    At cur (MonadState.get >>= f) Q := hf

theorem At.start
    {β : Type} {Q : β → Nat → Prop} {cur : Cursor} {f : Cursor → Parser β}
    (hf : From cur.skip.offset (f cur.skip) Q) :
    At cur (Grammar.start >>= f) Q :=
  hf cur.skip (Nat.le_refl _)

namespace From

variable {α β : Type} {lo : Nat} {P : α → Nat → Prop} {Q : β → Nat → Prop}

theorem mono {lo' : Nat} {p : Parser α} (hp : From lo p P) (hle : lo ≤ lo') : From lo' p P :=
  fun cur hcur => hp cur (Nat.le_trans hle hcur)

theorem imp
    {P' : α → Nat → Prop} {p : Parser α}
    (hp : From lo p P) (himp : ∀ a hi, P a hi → P' a hi) :
    From lo p P' :=
  fun cur hcur a next hrun => himp a _ (hp cur hcur a next hrun)

theorem of_pure {a : α} (ha : ∀ hi, lo ≤ hi → P a hi) : From lo (pure a) P := by
  intro cur hcur b next hrun
  cases hrun
  exact ha _ hcur

theorem of_throw (fault : Fault) : From lo (throw fault : Parser α) P := by
  intro cur hcur a next hrun
  cases hrun

theorem of_unexpected : From lo (unexpected : Parser α) P := of_throw _

theorem bind
    {p : Parser α} {f : α → Parser β}
    (hp : From lo p P) (hf : ∀ a mid, P a mid → From mid (f a) Q) :
    From lo (p >>= f) Q :=
  fun cur hcur => At.bind (hp cur hcur) hf

/-- A parser of which only the way it moves matters. -/
theorem skip
    {p : Parser α} {f : α → Parser β}
    (hp : From lo p fun _ hi => lo ≤ hi) (hf : ∀ a, From lo (f a) Q) :
    From lo (p >>= f) Q :=
  bind hp fun a _ hle => (hf a).mono hle

/-- A parser that moves on, of which nothing else matters. -/
theorem past
    {p : Parser α} {f : α → Parser β}
    (hp : From lo p fun _ hi => lo < hi) (hf : ∀ a, From (lo + 1) (f a) Q) :
    From lo (p >>= f) Q :=
  bind hp fun a _ hlt => (hf a).mono hlt

theorem pass
    {p : Parser α} {f : α → Parser β}
    (hp : From lo p fun _ hi => lo < hi) (hf : ∀ a, From lo (f a) Q) :
    From lo (p >>= f) Q :=
  past hp fun a => (hf a).mono (Nat.le_succ lo)

/-- What the parser looks at is where it goes on. -/
theorem getAt {f : Cursor → Parser β} (hf : ∀ cur, lo ≤ cur.offset → At cur (f cur) Q) :
    From lo (MonadState.get >>= f) Q :=
  fun cur hcur => At.get (hf cur hcur)

theorem get {f : Cursor → Parser β} (hf : ∀ cur, lo ≤ cur.offset → From cur.offset (f cur) Q) :
    From lo (MonadState.get >>= f) Q :=
  getAt fun cur hcur => hf cur hcur cur (Nat.le_refl _)

theorem look {f : Cursor → Parser β} (hf : ∀ cur, lo ≤ cur.offset → From lo (f cur) Q) :
    From lo (MonadState.get >>= f) Q :=
  get fun cur hcur => (hf cur hcur).mono hcur

theorem set {next : Cursor} {f : PUnit → Parser β} (hf : From next.offset (f ⟨⟩) Q) :
    From lo (set next >>= f) Q := by
  intro cur _
  exact hf next (Nat.le_refl _)

theorem move
    {next : Cursor} {f : PUnit → Parser β}
    (hnext : lo ≤ next.offset) (hf : From lo (f ⟨⟩) Q) :
    From lo (MonadStateOf.set next >>= f) Q :=
  set (hf.mono hnext)

theorem of_set {next : Cursor} {P : PUnit → Nat → Prop} (hnext : P ⟨⟩ next.offset) :
    From lo (MonadStateOf.set next : Parser PUnit) P := by
  intro cur _ a stop hrun
  cases hrun
  exact hnext

theorem map {f : α → β} {p : Parser α} (hp : From lo p fun a hi => Q (f a) hi) :
    From lo (f <$> p) Q := by
  intro cur hcur b next hrun
  obtain ⟨⟨a, mid⟩, ha, hb⟩ := bind_eq_ok_iff.mp hrun
  cases hb
  exact hp cur hcur a _ ha

theorem ite
    {c : Prop} [Decidable c] {p q : Parser α}
    (hp : From lo p P) (hq : From lo q P) :
    From lo (if c then p else q) P := by
  split
  · exact hp
  · exact hq

theorem iteBind
    {c : Prop} [Decidable c] {p q : Parser α} {f : α → Parser β}
    (hp : From lo p P) (hq : From lo q P) (hf : ∀ a mid, P a mid → From mid (f a) Q) :
    From lo (if c then p >>= f else q >>= f) Q :=
  ite (bind hp hf) (bind hq hf)

theorem either {p q : Parser α} (hp : From lo p P) (hq : From lo q P) :
    From lo (Grammar.either p q) P := by
  intro cur hcur a next hrun
  unfold Grammar.either at hrun
  cases hfirst : p cur with
  | ok result =>
      rw [hfirst] at hrun
      cases hrun
      exact hp cur hcur a next hfirst
  | error fault =>
      rw [hfirst] at hrun
      exact hq cur hcur a next hrun

theorem eitherReading {p q : Parser α} (hp : From lo p P) (hq : From lo q P) :
    From lo (Grammar.eitherReading p q) P := by
  intro cur hcur a next hrun
  unfold Grammar.eitherReading at hrun
  split at hrun
  next result hfirst =>
    cases hrun
    exact hp cur hcur a next hfirst
  next => cases hrun
  next =>
    split at hrun
    next => cases hrun
    next => exact hq cur hcur a next hrun

/-- Where the parser fails, the cursor is left alone. -/
theorem attempt
    {p : Parser α} {P : Option α → Nat → Prop}
    (hp : From lo p fun a => P (some a)) (hnone : ∀ hi, lo ≤ hi → P none hi) :
    From lo (Grammar.attempt p) P := by
  intro cur hcur result next hrun
  unfold Grammar.attempt at hrun
  cases hfirst : p cur with
  | ok found =>
      rw [hfirst] at hrun
      cases hrun
      exact hp cur hcur _ _ hfirst
  | error fault =>
      rw [hfirst] at hrun
      cases hrun
      exact hnone _ hcur

/-- What is known of the empty list, and kept when a result is put in front, is known of all the
results of a loop. -/
theorem whileMore
    {more : Cursor → Bool} {p : Parser α} {I : Nat → List α → Nat → Prop}
    (hdone : ∀ lo hi, lo ≤ hi → I lo [] hi)
    (hmore : ∀ lo, From lo p fun a mid => ∀ as hi, I mid as hi → I lo (a :: as) hi) :
    From lo (Grammar.whileMore more p) (I lo) := by
  have hrepeated : ∀ fuel lo, From lo (Grammar.repeated more p fuel) (I lo) := by
    intro fuel
    induction fuel with
    | zero => exact fun lo => of_pure (hdone lo)
    | succ fuel ih =>
        intro lo
        refine get fun cur hcur => ?_
        split
        · refine bind ((hmore lo).mono hcur) fun a mid ha => ?_
          rw [bind_pure_comp]
          exact map ((ih mid).imp fun as hi has => ha as hi has)
        · exact of_pure fun hi hhi => hdone lo hi (by omega)
  exact get fun cur hcur => (hrepeated _ lo).mono hcur

/-! ## Tokens -/

theorem start
    {f : Cursor → Parser β}
    (hf : ∀ origin, lo ≤ origin.offset → From origin.offset (f origin) Q) :
    From lo (Grammar.start >>= f) Q := by
  intro cur hcur
  exact At.start (hf cur.skip (Nat.le_trans hcur cur.offset_le_skip))

theorem next {f : Cursor → Parser β} (hf : ∀ origin, lo ≤ origin.offset → From lo (f origin) Q) :
    From lo (Grammar.start >>= f) Q :=
  start fun origin horigin => (hf origin horigin).mono horigin

theorem operandStart
    {f : Cursor → Parser β}
    (hf : ∀ origin, lo ≤ origin.offset → From origin.offset (f origin) Q) :
    From lo (Grammar.operandStart >>= f) Q := by
  intro cur hcur
  exact hf cur.skipToOperand (Nat.le_trans hcur cur.offset_le_skipToOperand) _ (Nat.le_refl _)

theorem mark (text : String) : From lo (Grammar.mark text) fun _ hi => lo < hi := by
  refine get fun cur hcur => ?_
  split
  next found next hmark =>
    refine ite (of_set ?_) of_unexpected
    exact Nat.lt_of_le_of_lt hcur (Cursor.offset_lt_of_mark? hmark)
  next => exact of_unexpected

theorem keyword (text : String) : From lo (Grammar.keyword text) fun _ hi => lo < hi := by
  refine get fun cur hcur => ?_
  split
  next found next hword =>
    refine ite (of_set ?_) of_unexpected
    exact Nat.lt_of_le_of_lt hcur (Cursor.offset_lt_of_word? hword)
  next => exact of_unexpected

theorem hasMark (text : String) : From lo (Grammar.hasMark text) fun _ hi => lo ≤ hi := by
  refine get fun cur hcur => ?_
  split
  next found next hmark =>
    have hnext := Cursor.offset_lt_of_mark? hmark
    exact ite (set (of_pure fun hi hhi => by omega)) (of_pure fun hi hhi => by omega)
  next => exact of_pure fun hi hhi => by omega

theorem hasKeyword (text : String) : From lo (Grammar.hasKeyword text) fun _ hi => lo ≤ hi := by
  refine get fun cur hcur => ?_
  split
  next found next hword =>
    have hnext := Cursor.offset_lt_of_word? hword
    exact ite (set (of_pure fun hi hhi => by omega)) (of_pure fun hi hhi => by omega)
  next => exact of_pure fun hi hhi => by omega

theorem lexeme (length? : List Char → Option Nat) :
    From lo (Grammar.lexeme length?) fun _ hi => lo ≤ hi := by
  refine get fun cur hcur => ?_
  split
  next n _ =>
    have hnext := cur.offset_le_advance n
    exact set (of_pure fun hi hhi => by omega)
  next => exact of_unexpected

theorem solidLexeme {length? : List Char → Option Nat} (hsolid : Solid length?) :
    From lo (Grammar.lexeme length?) fun _ hi => lo < hi := by
  refine get fun cur hcur => ?_
  split
  next n hn =>
    obtain ⟨hrest, hpositive⟩ := hsolid _ _ hn
    have hnext := Cursor.offset_lt_advance hrest hpositive
    exact set (of_pure fun hi hhi => by omega)
  next => exact of_unexpected

theorem semicolon (afterOperand : Bool) :
    From lo (Grammar.semicolon afterOperand) fun _ hi => lo ≤ hi := by
  refine get fun cur hcur => ?_
  split
  next stop hend =>
    have hstop := Cursor.offset_le_of_automaticEnd? hend
    exact of_set (by omega)
  next => exact (mark ";").imp fun _ hi hhi => by omega

end From

end Graft.Grammar
