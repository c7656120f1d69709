/-!
# Binary floating point numbers

A number is held as the 64 bits of its binary interchange format.  Reading a quotient of natural
numbers rounds to the nearest representable value, a tie going to the even neighbour; the rounding
is done in exact integer arithmetic.
-/

namespace Graft

structure Binary64 where
  bits : UInt64
deriving DecidableEq, Repr, Inhabited

namespace Binary64

/-- The bits of positive infinity; every larger magnitude is a NaN. -/
def infinityBits : Nat := 0x7ff0000000000000

def infinity : Binary64 := ⟨infinityBits.toUInt64⟩

/-- The bits without the sign. -/
def magnitude (x : Binary64) : Nat := x.bits.toNat % Nat.pow 2 63

def isNegative (x : Binary64) : Bool := Nat.pow 2 63 ≤ x.bits.toNat

def isNaN (x : Binary64) : Bool := infinityBits < x.magnitude

def isFinite (x : Binary64) : Bool := x.magnitude < infinityBits

/-- Numeric equality: the two zeros are equal and a NaN equals nothing. -/
def numericEq (x y : Binary64) : Bool :=
  !x.isNaN && !y.isNaN && (x.bits == y.bits || (x.magnitude == 0 && y.magnitude == 0))

/-- The integer significand of a finite number. -/
def significand (x : Binary64) : Nat :=
  if x.magnitude < Nat.pow 2 52 then x.magnitude else Nat.pow 2 52 + x.magnitude % Nat.pow 2 52

/-- The binary exponent above the least one: a finite number is
`significand * 2 ^ (scale - 1074)` up to sign. -/
def scale (x : Binary64) : Nat := x.magnitude / Nat.pow 2 52 - 1

/-- The integer nearest to `num / den`, a tie going to the even neighbour. -/
def roundQuotient (num den : Nat) : Nat :=
  let quotient := num / den
  let twice := 2 * (num % den)
  if den < twice || (twice == den && quotient % 2 == 1) then quotient + 1 else quotient

/-- The scale at which `num / den` has a significand of 53 bits, or 0 where the number is too
small for that. -/
def scaleOf (num den : Nat) : Nat :=
  let upper := num.log2 + 1074 - 52 - den.log2
  if upper = 0 then 0
  else if num * Nat.pow 2 1074 < den * Nat.pow 2 (upper + 52) then upper - 1 else upper

/-- The representable number nearest to `num / den`; too large a quotient gives infinity. -/
def ofQuotient (num den : Nat) : Binary64 :=
  if num = 0 then ⟨0⟩
  else
    let scale := scaleOf num den
    let significand := roundQuotient (num * Nat.pow 2 1074) (den * Nat.pow 2 scale)
    ⟨(min (scale * Nat.pow 2 52 + significand) infinityBits).toUInt64⟩

def ofNat (n : Nat) : Binary64 := ofQuotient n 1

def digitCount (n : Nat) : Nat :=
  if n = 0 then 0 else (Nat.toDigits 10 n).length

/-- The representable number nearest to `digits * 10 ^ exponent`.  Exponents far outside the
range are settled by magnitude alone. -/
def ofDecimal (digits : Nat) (exponent : Int) : Binary64 :=
  let order := (digitCount digits : Int) + exponent
  if digits = 0 then ⟨0⟩
  else if 310 < order then infinity
  else if order < -330 then ⟨0⟩
  else if 0 ≤ exponent then ofQuotient (digits * Nat.pow 10 exponent.toNat) 1
  else ofQuotient digits (Nat.pow 10 (-exponent).toNat)

end Binary64
end Graft
