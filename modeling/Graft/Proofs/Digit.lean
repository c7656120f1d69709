import Graft.Number.Numeral
import Mathlib.Algebra.Group.Nat.Defs

/-!
# Digits

The digits that literals are written with, and the number that a run of them stands for.
-/

namespace Graft

/-- A digit below the radix; from ten on it is a letter of either case. -/
structure Digit (radix : Nat) where
  value : Fin radix
  upper : Bool
deriving DecidableEq, Repr

namespace Digit

variable {radix : Nat}

def charOf (value : Nat) (upper : Bool) : Char :=
  if value < 10 then Char.ofNat (48 + value)
  else if upper then Char.ofNat (55 + value)
  else Char.ofNat (87 + value)

def char (d : Digit radix) : Char := charOf d.value d.upper

def number (digits : List (Digit radix)) : Nat :=
  digits.foldl (fun n d => n * radix + d.value.val) 0

theorem digit?_charOf :
    ∀ (value : Fin 16) (upper : Bool), Text.digit? (charOf value upper) = some value.val := by
  decide

theorem digit?_char (hradix : radix ≤ 16) (d : Digit radix) :
    Text.digit? d.char = some d.value.val :=
  digit?_charOf ⟨d.value, Nat.lt_of_lt_of_le d.value.isLt hradix⟩ d.upper

/-- A digit is not written as a character that is no digit of the radix. -/
theorem char_ne
    (hradix : radix ≤ 16)
    (d : Digit radix)
    {c : Char}
    (hc : (Text.digit? c).all (radix ≤ ·) = true) :
    d.char ≠ c := by
  rintro rfl
  rw [d.digit?_char hradix, Option.all_some, decide_eq_true_iff] at hc
  exact Nat.not_le_of_lt d.value.isLt hc

theorem char_notMem
    (hradix : radix ≤ 16)
    (d : Digit radix)
    {marks : List Char}
    (hmarks : (marks.all fun c => (Text.digit? c).all (radix ≤ ·)) = true) :
    d.char ∉ marks :=
  fun hmem => d.char_ne hradix (List.all_eq_true.mp hmarks _ hmem) rfl

/-- A fold that takes in each digit gives the number of the digits. -/
theorem foldlM_map_char
    {f : Nat → Char → Option Nat}
    (hf : ∀ n (d : Digit radix), f n d.char = some (n * radix + d.value.val))
    (digits : List (Digit radix)) (n : Nat) :
    (digits.map char).foldlM f n = some (digits.foldl (fun n d => n * radix + d.value.val) n) := by
  induction digits generalizing n with
  | nil => rfl
  | cons d digits ih =>
      rw [List.map_cons, List.foldlM_cons, hf]
      exact ih _

theorem foldl_lt (digits : List (Digit radix)) (n : Nat) :
    digits.foldl (fun n d => n * radix + d.value.val) n < (n + 1) * radix ^ digits.length := by
  induction digits generalizing n with
  | nil => simp
  | cons d digits ih =>
      have hd := d.value.isLt
      have hstep : n * radix + d.value + 1 ≤ (n + 1) * radix := by
        rw [Nat.add_mul, Nat.one_mul]
        omega
      calc digits.foldl (fun n d => n * radix + d.value.val) (n * radix + d.value)
          < (n * radix + d.value + 1) * radix ^ digits.length := ih _
        _ ≤ ((n + 1) * radix) * radix ^ digits.length := Nat.mul_le_mul_right _ hstep
        _ = (n + 1) * radix ^ (d :: digits).length := by
            rw [List.length_cons, Nat.pow_succ, Nat.mul_assoc, Nat.mul_comm radix]

theorem number_lt (digits : List (Digit radix)) : number digits < radix ^ digits.length := by
  simpa [number] using foldl_lt digits 0

end Digit
end Graft
