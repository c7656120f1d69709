import Graft.Proofs.Digit
import Graft.Proofs.ExactInteger
import Graft.Proofs.Shape
import Mathlib.Data.List.TakeDrop
import Mathlib.Data.List.TakeWhile

/-!
# The value of an integer literal

An integer literal is read at its value as long as that value has at most 53 bits, whatever its
radix and wherever it has separators.  The exception is an octal literal without a mark, of the
form `0755`: its digits are read as decimal ones, which gives its value only below eight.
-/

namespace Graft

/-! ## Integer literals -/

inductive RadixMark where
  | hexadecimal
  | octal
  | binary
deriving DecidableEq, Repr

namespace RadixMark

def radix : RadixMark → Nat
  | hexadecimal => 16
  | octal => 8
  | binary => 2

def char : RadixMark → Bool → Char
  | hexadecimal, upper => if upper then 'X' else 'x'
  | octal, upper => if upper then 'O' else 'o'
  | binary, upper => if upper then 'B' else 'b'

theorem radix_le (mark : RadixMark) : mark.radix ≤ 16 := by cases mark <;> decide

end RadixMark

/-- Digits behind a first one, each with or without a separator in front. -/
abbrev Digit.Tail (radix : Nat) := List (Bool × Digit radix)

namespace Digit.Tail

variable {radix : Nat}

def chars (tail : Digit.Tail radix) : List Char :=
  tail.flatMap fun entry => if entry.1 then ['_', entry.2.char] else [entry.2.char]

def digits (tail : Digit.Tail radix) : List (Digit radix) := tail.map Prod.snd

end Digit.Tail

/-- The integer literals of the language, but for those of arbitrary precision. -/
inductive IntegerLiteral where
  | zero
  | decimal (first : Digit 10) (tail : Digit.Tail 10) (h : first.value ≠ 0)
  /-- A zero and digits that are not all octal. -/
  | leadingZero (digits : List (Digit 10)) (h : ∃ d ∈ digits, 8 ≤ d.value.val)
  | marked (mark : RadixMark) (upper : Bool) (first : Digit mark.radix)
      (tail : Digit.Tail mark.radix)
  /-- A zero and octal digits. -/
  | legacyOctal (digits : List (Digit 8)) (h : digits ≠ [])

/-- An octal digit among the decimal ones. -/
def Digit.toDecimal (d : Digit 8) : Digit 10 := ⟨d.value.castLE (by decide), d.upper⟩

namespace IntegerLiteral

def chars : IntegerLiteral → List Char
  | zero => ['0']
  | decimal first tail _ => first.char :: tail.chars
  | leadingZero digits _ => '0' :: digits.map Digit.char
  | marked mark upper first tail => '0' :: mark.char upper :: first.char :: tail.chars
  | legacyOctal digits _ => '0' :: digits.map Digit.char

def text (l : IntegerLiteral) : String := String.ofList l.chars

/-- The integer that the literal denotes. -/
def value : IntegerLiteral → Nat
  | zero => 0
  | decimal first tail _ => Digit.number (first :: tail.digits)
  | leadingZero digits _ => Digit.number digits
  | marked _ _ first tail => Digit.number (first :: tail.digits)
  | legacyOctal digits _ => Digit.number digits

/-- The integer that the literal is read at. -/
def reading : IntegerLiteral → Nat
  | legacyOctal digits _ => Digit.number (digits.map Digit.toDecimal)
  | l => l.value

/-- An octal literal without a mark, of eight or more. -/
def IsMisread : IntegerLiteral → Prop
  | legacyOctal digits _ => 8 ≤ Digit.number digits
  | _ => False

instance : DecidablePred IsMisread
  | legacyOctal _ _ => inferInstanceAs (Decidable (8 ≤ _))
  | zero | decimal .. | leadingZero .. | marked .. => isFalse id

end IntegerLiteral

/-! ## Octal digits read as decimal ones -/

namespace Digit

/-- Two readings that agree below eight; from there on the second one is larger. -/
structure Readings (m n : Nat) : Prop where
  small : m < 8 → n = m
  large : 8 ≤ m → m < n

theorem Readings.step {m n d : Nat} (h : Readings m n) (hd : d < 8) :
    Readings (m * 8 + d) (n * 10 + d) := by
  rcases Nat.lt_or_ge m 8 with hm | hm
  · have hn := h.small hm
    exact ⟨by omega, by omega⟩
  · have hn := h.large hm
    exact ⟨by omega, by omega⟩

theorem Readings.run {m n : Nat} (h : Readings m n) (digits : List (Digit 8)) :
    Readings (digits.foldl (fun m d => m * 8 + d.value.val) m)
      ((digits.map toDecimal).foldl (fun n d => n * 10 + d.value.val) n) := by
  induction digits generalizing m n with
  | nil => exact h
  | cons d digits ih => exact ih (h.step d.value.isLt)

theorem number_toDecimal_eq_iff (digits : List (Digit 8)) :
    number (digits.map toDecimal) = number digits ↔ number digits < 8 := by
  have hreadings : Readings (number digits) (number (digits.map toDecimal)) :=
    Readings.run ⟨fun _ => rfl, by omega⟩ digits
  constructor
  · intro heq
    by_contra hlarge
    have hlt := hreadings.large (Nat.not_lt.mp hlarge)
    omega
  · exact hreadings.small

end Digit

theorem IntegerLiteral.reading_eq_value_iff (l : IntegerLiteral) :
    l.reading = l.value ↔ ¬ l.IsMisread := by
  cases l with
  | legacyOctal digits h =>
      rw [reading, value, Digit.number_toDecimal_eq_iff, IsMisread, Nat.not_le]
  | zero | decimal | leadingZero | marked => simp [reading, IsMisread]

/-! ## Reading digits -/

namespace Numeral

variable {radix : Nat}

theorem digits?_map_char
    (hradix : radix ≤ 16)
    {digits : List (Digit radix)}
    (hdigits : digits ≠ []) :
    digits? radix (digits.map Digit.char) = some (Digit.number digits) := by
  rw [digits?, if_neg (by simpa using hdigits)]
  refine Digit.foldlM_map_char (fun n d => ?_) digits 0
  simp [d.digit?_char hradix]

theorem splitAt_map_char
    (hradix : radix ≤ 16)
    (digits : List (Digit radix))
    {marks : List Char}
    (hmarks : (marks.all fun c => (Text.digit? c).all (radix ≤ ·)) = true) :
    splitAt marks (digits.map Digit.char) = (digits.map Digit.char, none) := by
  have hall : ∀ c ∈ digits.map Digit.char, (!marks.contains c) = true := by
    intro c hc
    obtain ⟨d, -, rfl⟩ := List.mem_map.mp hc
    simpa using d.char_notMem hradix hmarks
  rw [splitAt, List.span_eq_takeWhile_dropWhile, List.takeWhile_eq_self_iff.mpr hall,
    List.dropWhile_eq_nil_iff.mpr hall]

theorem decimal?_map_char {digits : List (Digit 10)} (hdigits : digits ≠ []) :
    decimal? (digits.map Digit.char) = some (Binary64.ofDecimal (Digit.number digits) 0) := by
  have hpower : splitAt ['e', 'E'] (digits.map Digit.char) = (digits.map Digit.char, none) :=
    splitAt_map_char (by decide) digits rfl
  have hpoint : splitAt ['.'] (digits.map Digit.char) = (digits.map Digit.char, none) :=
    splitAt_map_char (by decide) digits rfl
  simp [decimal?, hpower, hpoint, decimalDigits?, digits?_map_char (by decide) hdigits, hdigits]

/-- A literal that ends in a digit has no precision mark. -/
theorem getLast?_append_map_char
    (hradix : radix ≤ 16)
    (front : List Char)
    {digits : List (Digit radix)}
    (hdigits : digits ≠ []) :
    (front ++ digits.map Digit.char).getLast? ≠ some 'n' := by
  have hlast := List.getLast?_eq_some_getLast hdigits
  rw [List.getLast?_append, List.getLast?_map, hlast]
  simpa using (digits.getLast hdigits).char_ne hradix rfl

theorem radix?_map_char (digits : List (Digit 10)) : radix? (digits.map Digit.char) = none := by
  unfold radix?
  split
  next mark rest heq =>
    -- the second digit is no radix mark
    obtain ⟨d, -, hd⟩ : ∃ d ∈ digits, d.char = mark := by
      rw [← List.mem_map, heq]
      simp
    have hmark : mark ∉ ['x', 'X', 'o', 'O', 'b', 'B'] :=
      hd ▸ d.char_notMem (by decide) rfl
    simp only [List.mem_cons, List.not_mem_nil, or_false, not_or] at hmark
    simp [hmark]
  next => rfl

theorem value?_of_decimal
    {text : String} {digits : List (Digit 10)}
    (hdigits : digits ≠ []) (htext : text.toList.filter (· ≠ '_') = digits.map Digit.char) :
    value? text = some (Binary64.ofDecimal (Digit.number digits) 0) := by
  have hlast : (digits.map Digit.char).getLast? ≠ some 'n' :=
    getLast?_append_map_char (by decide) [] hdigits
  simp only [value?, htext, if_neg hlast, radix?_map_char, decimal?_map_char hdigits]

theorem value?_of_marked
    {text : String} {mark : RadixMark} {upper : Bool} {digits : List (Digit mark.radix)}
    (hdigits : digits ≠ [])
    (htext : text.toList.filter (· ≠ '_') = '0' :: mark.char upper :: digits.map Digit.char)
    (hsmall : Digit.number digits < 2 ^ 64) :
    value? text = some (Binary64.ofNat (Digit.number digits)) := by
  have hradix : radix? ('0' :: mark.char upper :: digits.map Digit.char) =
      some (mark.radix, digits.map Digit.char) := by
    cases mark <;> cases upper <;> rfl
  have hlast : ('0' :: mark.char upper :: digits.map Digit.char).getLast? ≠ some 'n' :=
    getLast?_append_map_char mark.radix_le ['0', mark.char upper] hdigits
  simp only [value?, htext, if_neg hlast, hradix, digits?_map_char mark.radix_le hdigits]
  exact if_pos hsmall

end Numeral

/-! ## Reading literals -/

namespace Digit

variable {radix : Nat}

theorem filter_map_char (hradix : radix ≤ 16) (digits : List (Digit radix)) :
    (digits.map char).filter (· ≠ '_') = digits.map char := by
  refine List.filter_eq_self.mpr fun c hc => ?_
  obtain ⟨d, -, rfl⟩ := List.mem_map.mp hc
  simpa using d.char_ne hradix rfl

theorem Tail.filter_chars (hradix : radix ≤ 16) (tail : Tail radix) :
    tail.chars.filter (· ≠ '_') = tail.digits.map char := by
  induction tail with
  | nil => rfl
  | cons entry tail ih =>
      obtain ⟨separated, d⟩ := entry
      have hd : d.char ≠ '_' := d.char_ne hradix rfl
      have hhead : (if separated then ['_', d.char] else [d.char]).filter (· ≠ '_') = [d.char] := by
        cases separated <;> simp [hd]
      rw [Tail.chars, List.flatMap_cons, List.filter_append, hhead]
      exact congrArg (d.char :: ·) ih

end Digit

namespace Binary64

theorem digitCount_le {n : Nat} (hn : n < 2 ^ 53) : digitCount n ≤ 16 := by
  unfold digitCount
  split
  next => omega
  next => exact (Nat.length_toDigits_le_iff (by decide) (by decide)).mpr (by omega)

/-- A natural number in decimal notation is read as such, or is too large to be held. -/
theorem ofDecimal_zero (n : Nat) :
    ofDecimal n 0 = ofNat n ∨ (2 ^ 53 ≤ n ∧ ofDecimal n 0 = infinity) := by
  unfold ofDecimal
  dsimp only
  split_ifs with hzero horder hlow hexponent
  · subst hzero
    exact .inl rfl
  · refine .inr ⟨?_, rfl⟩
    by_contra hn
    have := digitCount_le (Nat.not_le.mp hn)
    omega
  · omega
  · exact .inl (by simp [ofNat])
  · exact absurd (Int.le_refl 0) hexponent

end Binary64

namespace IntegerLiteral

/-- A literal below `2 ^ 53` is read as an integer, unless that integer is too large to be held. -/
theorem value?_text {l : IntegerLiteral} (hl : l.value < 2 ^ 53) :
    ∃ x, Numeral.value? l.text = some x ∧
      (x = .ofNat l.reading ∨ (2 ^ 53 ≤ l.reading ∧ x = .infinity)) := by
  -- without a mark every literal goes to the decimal reader, an octal one too
  have hdecimal : ∀ digits : List (Digit 10), digits ≠ [] →
      l.chars.filter (· ≠ '_') = digits.map Digit.char → Digit.number digits = l.reading →
      ∃ x, Numeral.value? l.text = some x ∧
        (x = .ofNat l.reading ∨ (2 ^ 53 ≤ l.reading ∧ x = .infinity)) := by
    intro digits hdigits htext hreading
    rw [← hreading]
    exact ⟨_, Numeral.value?_of_decimal hdigits (by rwa [text, String.toList_ofList]),
      Binary64.ofDecimal_zero _⟩
  cases l with
  | zero => exact hdecimal [⟨0, false⟩] (by simp) rfl rfl
  | decimal first tail h =>
      exact hdecimal (first :: tail.digits) (by simp)
        (Digit.Tail.filter_chars (by decide) ((false, first) :: tail)) rfl
  | leadingZero digits h =>
      exact hdecimal (⟨0, false⟩ :: digits) (by simp)
        (Digit.filter_map_char (by decide) (⟨0, false⟩ :: digits)) rfl
  | marked mark upper first tail =>
      have hmark : mark.char upper ≠ '_' := by cases mark <;> cases upper <;> decide
      have htext : (text (marked mark upper first tail)).toList.filter (· ≠ '_') =
          '0' :: mark.char upper :: (first :: tail.digits).map Digit.char := by
        have htail := Digit.Tail.filter_chars mark.radix_le ((false, first) :: tail)
        rw [text, String.toList_ofList, chars, List.filter_cons_of_pos (by decide),
          List.filter_cons_of_pos (by simpa using hmark)]
        exact congrArg ('0' :: mark.char upper :: ·) htail
      exact ⟨_, Numeral.value?_of_marked (by simp) htext (Nat.lt_trans hl (by decide)), .inl rfl⟩
  | legacyOctal digits h =>
      refine hdecimal (⟨0, false⟩ :: digits.map Digit.toDecimal) (by simp) ?_ rfl
      rw [List.map_cons, List.map_map]
      exact Digit.filter_map_char (by decide) (⟨0, false⟩ :: digits)

theorem denotes_iff_eq_reading
    {l : IntegerLiteral} {x : Binary64} {n : Nat}
    (hn : n < 2 ^ 53) (hx : x = .ofNat l.reading ∨ (2 ^ 53 ≤ l.reading ∧ x = .infinity)) :
    x.Denotes n ↔ n = l.reading := by
  rcases hx with rfl | ⟨hlarge, rfl⟩
  · rcases Nat.lt_or_ge l.reading (2 ^ 53) with hsmall | hlarge
    · constructor
      · exact fun hdenotes => hdenotes.eq_of_units_eq (Binary64.denotes_ofNat hsmall) rfl
      · rintro rfl
        exact Binary64.denotes_ofNat hsmall
    · exact iff_of_false (Binary64.not_denotes_ofNat hn hlarge) (by omega)
  · exact iff_of_false (fun hdenotes => nomatch hdenotes.finite) (by omega)

theorem value?_text_of_not_isMisread
    {l : IntegerLiteral}
    (hl : l.value < 2 ^ 53) (hright : ¬ l.IsMisread) :
    Numeral.value? l.text = some (.ofNat l.value) := by
  obtain ⟨x, hx, hread⟩ := value?_text hl
  rw [l.reading_eq_value_iff.mpr hright] at hread
  obtain rfl := hread.resolve_right (by omega)
  exact hx

/-- A literal whose value has at most 53 bits is read at that value, unless it is an octal literal
without a mark, of eight or more.  Two literals that are read at their values are the same scalar
exactly if the values are equal. -/
theorem denotes_value_iff (l : IntegerLiteral) (hl : l.value < 2 ^ 53) :
    ((∃ x, Numeral.value? l.text = some x ∧ x.Denotes l.value) ↔ ¬ l.IsMisread) ∧
    ∀ k : IntegerLiteral, k.value < 2 ^ 53 → ¬ l.IsMisread → ¬ k.IsMisread →
      ((Scalar.num (Numeral.value? l.text) l.text).same
        (.num (Numeral.value? k.text) k.text) = true ↔ l.value = k.value) := by
  refine ⟨⟨?_, fun hright => ?_⟩, fun k hk hleft hright => ?_⟩
  · rintro ⟨x, hx, hdenotes⟩
    obtain ⟨y, hy, hread⟩ := value?_text hl
    cases hx.symm.trans hy
    rw [← reading_eq_value_iff, (denotes_iff_eq_reading hl hread).mp hdenotes]
  · exact ⟨_, value?_text_of_not_isMisread hl hright, Binary64.denotes_ofNat hl⟩
  · rw [value?_text_of_not_isMisread hl hleft, value?_text_of_not_isMisread hk hright, Scalar.same]
    constructor
    · intro heq
      exact (Binary64.denotes_ofNat hl).eq_of_units_eq (Binary64.denotes_ofNat hk)
        (Binary64.units_eq_of_numericEq heq)
    · intro heq
      rw [heq]
      exact Binary64.numericEq_self (Binary64.not_isNaN_ofQuotient _ _)

/-- Eight in hexadecimal notation is read as eight, and in octal notation without a mark it is
not. -/
theorem denotes_value_iff_eight :
    (∃ l : IntegerLiteral, l.text = "0x8" ∧ l.value = 8 ∧
      ∃ x, Numeral.value? l.text = some x ∧ x.Denotes l.value) ∧
    ∃ l : IntegerLiteral, l.text = "010" ∧ l.value = 8 ∧
      ¬ ∃ x, Numeral.value? l.text = some x ∧ x.Denotes l.value := by
  constructor
  · exact ⟨.marked .hexadecimal false ⟨⟨8, by decide⟩, false⟩ [], rfl, rfl,
      (denotes_value_iff _ (by decide)).1.mpr id⟩
  · exact ⟨.legacyOctal [⟨1, false⟩, ⟨0, false⟩] (by simp), rfl, rfl,
      fun hread => (denotes_value_iff _ (by decide)).1.mp hread (by decide)⟩

end IntegerLiteral
end Graft
