import Graft.Number.Binary64
import Mathlib.Algebra.Group.Nat.Defs

/-!
# Integers as floating point numbers

Every natural number below `2 ^ 53` is held exactly, and every larger one is rounded to a number
that is not below `2 ^ 53`.
-/

namespace Graft.Binary64

theorem two_pow_mul_two_pow {a b c : Nat} (h : a + b = c) : 2 ^ a * 2 ^ b = 2 ^ c := by
  rw [← Nat.pow_add, h]

theorem two_pow_mul_le_mul_two_pow {a b c d : Nat} (h : a + b ≤ c + d) :
    2 ^ a * 2 ^ b ≤ 2 ^ c * 2 ^ d := by
  rw [← Nat.pow_add, ← Nat.pow_add]
  exact Nat.pow_le_pow_right (by decide) h

/-! ## The number of a bit pattern -/

/-- The magnitude of a finite number in units of the least positive one. -/
def units (x : Binary64) : Nat := x.significand * 2 ^ x.scale

/-- The number is this natural number. -/
structure Denotes (x : Binary64) (n : Nat) : Prop where
  positive : x.isNegative = false
  finite : x.isFinite = true
  units_eq : x.units = n * 2 ^ 1074

theorem Denotes.eq_of_units_eq
    {x y : Binary64} {m n : Nat}
    (hx : x.Denotes m) (hy : y.Denotes n) (heq : x.units = y.units) :
    m = n := by
  rw [hx.units_eq, hy.units_eq] at heq
  exact Nat.eq_of_mul_eq_mul_right (Nat.two_pow_pos 1074) heq

/-- Numbers that are equal have the same magnitude, the two zeros included. -/
theorem units_eq_of_numericEq {x y : Binary64} (heq : x.numericEq y = true) :
    x.units = y.units := by
  have hmagnitude : x.magnitude = y.magnitude := by
    simp only [numericEq, Bool.and_eq_true, Bool.or_eq_true, beq_iff_eq] at heq
    rcases heq.2 with hbits | ⟨hx, hy⟩
    · rw [magnitude, magnitude, hbits]
    · rw [hx, hy]
  simp only [units, significand, scale, hmagnitude]

section Bits

variable {bits : Nat}

theorem toNat_toUInt64 (hbits : bits ≤ infinityBits) : bits.toUInt64.toNat = bits := by
  unfold infinityBits at hbits
  simp only [Nat.toUInt64_eq, UInt64.toNat_ofNat']
  omega

theorem magnitude_mk (hbits : bits ≤ infinityBits) : magnitude ⟨bits.toUInt64⟩ = bits := by
  rw [magnitude, toNat_toUInt64 hbits, Nat.pow_eq]
  unfold infinityBits at hbits
  omega

theorem isNegative_mk (hbits : bits ≤ infinityBits) : isNegative ⟨bits.toUInt64⟩ = false := by
  rw [isNegative, toNat_toUInt64 hbits, Nat.pow_eq, decide_eq_false_iff_not]
  unfold infinityBits at hbits
  omega

theorem isFinite_mk (hbits : bits ≤ infinityBits) :
    isFinite ⟨bits.toUInt64⟩ = true ↔ bits < infinityBits := by
  rw [isFinite, magnitude_mk hbits, decide_eq_true_iff]

/-- A significand that is rounded up to `2 ^ 53` carries into the scale. -/
theorem units_mk
    {scale significand : Nat}
    (hlow : 2 ^ 52 ≤ significand)
    (hhigh : significand ≤ 2 ^ 53)
    (hbits : scale * 2 ^ 52 + significand ≤ infinityBits) :
    units ⟨(scale * 2 ^ 52 + significand).toUInt64⟩ = significand * 2 ^ scale := by
  rw [units, Binary64.significand, Binary64.scale, magnitude_mk hbits, Nat.pow_eq,
    if_neg (by omega)]
  rcases Nat.lt_or_eq_of_le hhigh with hlt | rfl
  · have hsignificand : 2 ^ 52 + (scale * 2 ^ 52 + significand) % 2 ^ 52 = significand := by omega
    have hscale : (scale * 2 ^ 52 + significand) / 2 ^ 52 - 1 = scale := by omega
    rw [hsignificand, hscale]
  · have hsignificand : 2 ^ 52 + (scale * 2 ^ 52 + 2 ^ 53) % 2 ^ 52 = 2 ^ 52 := by omega
    have hscale : (scale * 2 ^ 52 + 2 ^ 53) / 2 ^ 52 - 1 = scale + 1 := by omega
    rw [hsignificand, hscale, two_pow_mul_two_pow (c := 53 + scale) (by omega),
      two_pow_mul_two_pow rfl]

end Bits

/-! ## Rounding a natural number -/

theorem roundQuotient_mul {a b : Nat} (hb : 0 < b) : roundQuotient (a * b) b = a := by
  simp [roundQuotient, Nat.mul_div_cancel _ hb, Nat.mul_mod_left, Nat.ne_of_lt hb]

theorem div_le_roundQuotient (num den : Nat) : num / den ≤ roundQuotient num den := by
  unfold roundQuotient
  dsimp only
  split <;> omega

theorem roundQuotient_le (num den : Nat) : roundQuotient num den ≤ num / den + 1 := by
  unfold roundQuotient
  dsimp only
  split <;> omega

/-- A natural number has its leading bit in the place of the leading bit of the significand. -/
theorem scaleOf_one {n : Nat} (hn : n ≠ 0) : scaleOf n 1 = n.log2 + 1022 := by
  have hlog : Nat.log2 1 = 0 := by decide
  have hupper : n.log2 + 1074 - 52 - Nat.log2 1 = n.log2 + 1022 := by omega
  have hfits : ∀ e, ¬ n * Nat.pow 2 e < 1 * Nat.pow 2 (n.log2 + e) := by
    intro e
    rw [Nat.one_mul, Nat.pow_eq, Nat.pow_eq, Nat.pow_add, Nat.not_lt]
    exact Nat.mul_le_mul_right _ (Nat.log2_self_le hn)
  rw [scaleOf, hupper, if_neg (by omega), if_neg (hfits 1074)]

def significandOf (n : Nat) : Nat := roundQuotient (n * 2 ^ 1074) (2 ^ (n.log2 + 1022))

theorem ofNat_eq {n : Nat} (hn : n ≠ 0) :
    ofNat n = ⟨(min ((n.log2 + 1022) * 2 ^ 52 + significandOf n) infinityBits).toUInt64⟩ := by
  rw [ofNat, ofQuotient, if_neg hn]
  dsimp only
  rw [scaleOf_one hn, Nat.one_mul, Nat.pow_eq, Nat.pow_eq, Nat.pow_eq, significandOf]

theorem le_significandOf {n : Nat} (hn : n ≠ 0) : 2 ^ 52 ≤ significandOf n := by
  refine Nat.le_trans ?_ (div_le_roundQuotient _ _)
  rw [Nat.le_div_iff_mul_le (Nat.two_pow_pos _), ← Nat.pow_add]
  calc 2 ^ (52 + (n.log2 + 1022)) = 2 ^ n.log2 * 2 ^ 1074 := (two_pow_mul_two_pow (by omega)).symm
    _ ≤ n * 2 ^ 1074 := Nat.mul_le_mul_right _ (Nat.log2_self_le hn)

theorem significandOf_le (n : Nat) : significandOf n ≤ 2 ^ 53 := by
  refine Nat.le_trans (roundQuotient_le _ _) ?_
  rw [Nat.succ_le_iff, Nat.div_lt_iff_lt_mul (Nat.two_pow_pos _), ← Nat.pow_add]
  calc n * 2 ^ 1074 < 2 ^ (n.log2 + 1) * 2 ^ 1074 :=
        Nat.mul_lt_mul_of_pos_right Nat.lt_log2_self (Nat.two_pow_pos _)
    _ = 2 ^ (53 + (n.log2 + 1022)) := two_pow_mul_two_pow (by omega)

/-- Unless it is too large, a natural number is read as its rounded significand and its scale. -/
theorem units_ofNat {n : Nat} (hn : n ≠ 0) (hfinite : (ofNat n).isFinite = true) :
    (ofNat n).units = significandOf n * 2 ^ (n.log2 + 1022) := by
  rw [ofNat_eq hn] at hfinite ⊢
  have hbits := (isFinite_mk (Nat.min_le_right _ _)).mp hfinite
  rw [Nat.min_eq_left (by omega)]
  exact units_mk (le_significandOf hn) (significandOf_le n) (by omega)

/-- A natural number of at most 53 bits is held exactly. -/
theorem denotes_ofNat {n : Nat} (hn : n < 2 ^ 53) : (ofNat n).Denotes n := by
  by_cases hzero : n = 0
  · subst hzero
    exact ⟨rfl, rfl, (Nat.zero_mul _).symm⟩
  have hlog : n.log2 < 53 := (Nat.log2_lt hzero).mpr hn
  have hbits : (n.log2 + 1022) * 2 ^ 52 + significandOf n < infinityBits := by
    have hsignificand := significandOf_le n
    unfold infinityBits
    omega
  have hfinite : (ofNat n).isFinite = true := by
    rw [ofNat_eq hzero, isFinite_mk (Nat.min_le_right _ _)]
    omega
  -- all bits fit into the significand, so the division leaves no remainder
  have hexact : significandOf n = n * 2 ^ (52 - n.log2) := by
    have hsplit : n * 2 ^ 1074 = n * 2 ^ (52 - n.log2) * 2 ^ (n.log2 + 1022) := by
      rw [Nat.mul_assoc, two_pow_mul_two_pow (c := 1074) (by omega)]
    rw [significandOf, hsplit, roundQuotient_mul (Nat.two_pow_pos _)]
  refine ⟨?_, hfinite, ?_⟩
  · rw [ofNat_eq hzero]
    exact isNegative_mk (Nat.min_le_right _ _)
  · rw [units_ofNat hzero hfinite, hexact, Nat.mul_assoc,
      two_pow_mul_two_pow (c := 1074) (by omega)]

/-- A larger number is never rounded below `2 ^ 53`. -/
theorem not_denotes_ofNat {m n : Nat} (hm : m < 2 ^ 53) (hn : 2 ^ 53 ≤ n) :
    ¬ (ofNat n).Denotes m := by
  intro hdenotes
  have hzero : n ≠ 0 := by omega
  have hlog : 53 ≤ n.log2 := (Nat.le_log2 hzero).mpr hn
  have hlarge : 2 ^ 53 * 2 ^ 1074 ≤ (ofNat n).units := by
    rw [units_ofNat hzero hdenotes.finite]
    calc 2 ^ 53 * 2 ^ 1074 ≤ 2 ^ 52 * 2 ^ (n.log2 + 1022) :=
          two_pow_mul_le_mul_two_pow (by omega)
      _ ≤ significandOf n * 2 ^ (n.log2 + 1022) :=
          Nat.mul_le_mul_right _ (le_significandOf hzero)
  have hsmall : m * 2 ^ 1074 < 2 ^ 53 * 2 ^ 1074 :=
    Nat.mul_lt_mul_of_pos_right hm (Nat.two_pow_pos _)
  rw [hdenotes.units_eq] at hlarge
  exact Nat.not_le_of_lt hsmall hlarge

end Graft.Binary64
