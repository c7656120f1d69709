import Graft.Number.Binary64
import Graft.Text.Digit

/-!
# Numerals

The value that the text of a numeric literal stands for.  Separators are ignored.  A literal that
ends in `n` is an arbitrary precision integer and has no floating point value; a literal with a
radix mark is read as an unsigned 64-bit integer.
-/

namespace Graft.Numeral

/-- The natural number that a nonempty run of digits denotes. -/
def digits? (radix : Nat) (text : List Char) : Option Nat :=
  if text.isEmpty then none
  else text.foldlM (fun n c => do
    let d ← Text.digit? c
    if d < radix then some (n * radix + d) else none) 0

/-- A possibly empty run of decimal digits. -/
def decimalDigits? (text : List Char) : Option Nat :=
  if text.isEmpty then some 0 else digits? 10 text

/-- The part before the first of the given characters, and the part after it if there is one. -/
def splitAt (marks : List Char) (text : List Char) : List Char × Option (List Char) :=
  match text.span fun c => !marks.contains c with
  | (before, []) => (before, none)
  | (before, _ :: after) => (before, some after)

def exponent? : List Char → Option Int
  | '-' :: rest => (digits? 10 rest).map fun n => -(n : Int)
  | '+' :: rest => (digits? 10 rest).map Int.ofNat
  | rest => (digits? 10 rest).map Int.ofNat

/-- Reads a decimal with optional fraction and exponent; at least one digit stands around the
point. -/
def decimal? (text : List Char) : Option Binary64 := do
  let (mantissa, power) := splitAt ['e', 'E'] text
  let (whole, fraction) := splitAt ['.'] mantissa
  let fraction := fraction.getD []
  if whole.isEmpty && fraction.isEmpty then none
  let digits ← decimalDigits? (whole ++ fraction)
  let power ← match power with
    | none => some 0
    | some p => exponent? p
  return Binary64.ofDecimal digits (power - fraction.length)

def radix? : List Char → Option (Nat × List Char)
  | '0' :: mark :: rest =>
    if mark = 'x' ∨ mark = 'X' then some (16, rest)
    else if mark = 'o' ∨ mark = 'O' then some (8, rest)
    else if mark = 'b' ∨ mark = 'B' then some (2, rest)
    else none
  | _ => none

def value? (text : String) : Option Binary64 :=
  let cleaned := text.toList.filter (· ≠ '_')
  if cleaned.getLast? = some 'n' then none
  else match radix? cleaned with
    | some (radix, rest) => do
      let n ← digits? radix rest
      if n < Nat.pow 2 64 then some (Binary64.ofNat n) else none
    | none => decimal? cleaned

end Graft.Numeral
