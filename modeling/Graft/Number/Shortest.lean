import Graft.Number.Binary64

/-!
# Shortest decimal digits

The shortest decimal of a finite positive number is the one with the fewest digits that rounds
back to it, and of several the one nearest to it.  All comparisons are between natural numbers.
-/

namespace Graft.Binary64

/-- A decimal `digits * 10 ^ exponent`. -/
structure Decimal where
  digits : Nat
  exponent : Int
deriving DecidableEq, Repr, Inhabited

/-- An interval of quotients over a common denominator, around the number itself. -/
structure Neighbourhood where
  low : Nat
  value : Nat
  high : Nat
  den : Nat
  closed : Bool

/-- The quotients that round to a finite positive number.  The gap below a power of two is half
as wide; the ends belong to the interval when the significand is even. -/
def neighbourhood (x : Binary64) : Neighbourhood :=
  let significand := x.significand
  let unit := Nat.pow 2 x.scale
  let below := if significand = Nat.pow 2 52 ∧ 0 < x.scale then 1 else 2
  { low := (4 * significand - below) * unit
    value := 4 * significand * unit
    high := (4 * significand + 2) * unit
    den := 4 * Nat.pow 2 1074
    closed := significand % 2 == 0 }

def Neighbourhood.contains (n : Neighbourhood) (num den : Nat) : Bool :=
  let point := num * n.den
  let low := n.low * den
  let high := n.high * den
  if n.closed then low ≤ point && point ≤ high else low < point && point < high

/-- The exponent of the leading decimal digit of `num / den`. -/
def leadingExponent (num den : Nat) : Int :=
  if den ≤ num then (digitCount (num / den) : Int) - 1
  else -(digitCount ((den + num - 1) / num - 1) : Int)

/-- The decimals of `count` digits next to the number that round back to it, nearest first. -/
def candidate? (n : Neighbourhood) (lead : Int) (count : Nat) : Option Decimal :=
  let exponent := lead - (count : Int) + 1
  let up := Nat.pow 10 exponent.toNat
  let down := Nat.pow 10 (-exponent).toNat
  let scaled := n.value * down
  let step := n.den * up
  let floor := scaled / step
  let rest := scaled % step
  let lowFits := n.contains (floor * up) down
  let highFits := n.contains ((floor + 1) * up) down
  let preferHigh := step < 2 * rest || (2 * rest == step && floor % 2 == 1)
  if lowFits && !(highFits && preferHigh) then some ⟨floor, exponent⟩
  else if highFits then some ⟨floor + 1, exponent⟩
  else none

/-- Removes trailing zeros, at most `fuel` of them. -/
def Decimal.trim : Nat → Decimal → Decimal
  | 0, d => d
  | fuel + 1, d =>
    if d.digits ≠ 0 ∧ d.digits % 10 = 0 then trim fuel ⟨d.digits / 10, d.exponent + 1⟩ else d

/-- Seventeen digits always suffice. -/
def shortest (x : Binary64) : Decimal :=
  let n := x.neighbourhood
  let lead := leadingExponent n.value n.den
  match (List.range 17).findSome? fun i => candidate? n lead (i + 1) with
  | some d => d.trim 20
  | none => ⟨0, 0⟩

end Graft.Binary64
