import Graft.Text.Digit
import Graft.Toml.Value

/-!
# Plain TOML values

Values written without quotes or brackets: truth values, integers, floating point numbers, and
dates and times.
-/

namespace Graft.Toml

def isOctalDigit (c : Char) : Bool := '0' ≤ c && c ≤ '7'

def isBinaryDigit (c : Char) : Bool := c == '0' || c == '1'

/-- The number that digits stand for. -/
def digitsValue (base : Nat) (digits : List Char) : Nat :=
  digits.foldl (fun n c => base * n + (Text.digit? c).getD 0) 0

/-- Digits without the underscores, each of which stands between two digits. -/
def ungroup? (isDigit : Char → Bool) : List Char → Option (List Char)
  | [] => none
  | [c] => if isDigit c then some [c] else none
  | c :: '_' :: cs => if isDigit c then (ungroup? isDigit cs).map (c :: ·) else none
  | c :: cs => if isDigit c then (ungroup? isDigit cs).map (c :: ·) else none

def splitSign : List Char → Bool × List Char
  | '-' :: cs => (true, cs)
  | '+' :: cs => (false, cs)
  | cs => (false, cs)

/-- Decimal digits, without a zero in front of others. -/
def decimalDigits? (cs : List Char) : Option (List Char) :=
  match ungroup? Char.isDigit cs with
  | some ('0' :: _ :: _) => none
  | digits => digits

/-- Integers have 64 bits. -/
def fitInteger? (n : Int) : Option Int :=
  let bound : Int := .ofNat (Nat.pow 2 63)
  if -bound ≤ n ∧ n < bound then some n else none

def integer? (cs : List Char) : Option Int :=
  let unsigned (base : Nat) (isDigit : Char → Bool) (cs : List Char) : Option Int :=
    (ungroup? isDigit cs).bind fun digits => fitInteger? (digitsValue base digits)
  match cs with
  | '0' :: 'x' :: cs => unsigned 16 Text.isHexDigit cs
  | '0' :: 'o' :: cs => unsigned 8 isOctalDigit cs
  | '0' :: 'b' :: cs => unsigned 2 isBinaryDigit cs
  | cs =>
    let (negative, cs) := splitSign cs
    (decimalDigits? cs).bind fun digits =>
      let n : Int := digitsValue 10 digits
      fitInteger? (if negative then -n else n)

def isExponentMark (c : Char) : Bool := c == 'e' || c == 'E'

/-- A number with a fraction, an exponent or both. -/
def isFloat (cs : List Char) : Bool :=
  let (_, cs) := splitSign cs
  let whole := cs.takeWhile fun c => c != '.' && !isExponentMark c
  let rest := cs.drop whole.length
  let isExponent (cs : List Char) : Bool := (ungroup? Char.isDigit (splitSign cs).2).isSome
  if cs == "inf".toList || cs == "nan".toList then true
  else
    (decimalDigits? whole).isSome &&
      match rest with
      | '.' :: rest =>
        let fraction := rest.takeWhile fun c => !isExponentMark c
        (ungroup? Char.isDigit fraction).isSome &&
          match rest.drop fraction.length with
          | [] => true
          | _ :: exponent => isExponent exponent
      | _ :: exponent => isExponent exponent
      | [] => false

/-- A number of exactly so many digits. -/
def fixed? (width : Nat) (cs : List Char) : Option (Nat × List Char) :=
  let digits := cs.take width
  if digits.length == width && digits.all Char.isDigit then
    some (digitsValue 10 digits, cs.drop width)
  else none

def isLeapYear (year : Nat) : Bool := (year % 4 == 0 && year % 100 != 0) || year % 400 == 0

def daysIn (year month : Nat) : Nat :=
  if month == 2 then (if isLeapYear year then 29 else 28)
  else if month == 4 || month == 6 || month == 9 || month == 11 then 30
  else 31

/-- Year, month and day; the text behind them. -/
def dateRest? (cs : List Char) : Option (List Char) := do
  let (year, cs) ← fixed? 4 cs
  let '-' :: cs := cs | none
  let (month, cs) ← fixed? 2 cs
  let '-' :: cs := cs | none
  let (day, cs) ← fixed? 2 cs
  if 1 ≤ month && month ≤ 12 && 1 ≤ day && day ≤ daysIn year month then some cs else none

/-- Hours and minutes with a colon between; the text behind them. -/
def clockRest? (cs : List Char) : Option (List Char) := do
  let (hour, cs) ← fixed? 2 cs
  let ':' :: cs := cs | none
  let (minute, cs) ← fixed? 2 cs
  if hour ≤ 23 && minute ≤ 59 then some cs else none

/-- A time of day, with seconds and their fraction if they are given. -/
def timeRest? (cs : List Char) : Option (List Char) := do
  let cs ← clockRest? cs
  match cs with
  | ':' :: cs =>
    let (second, cs) ← fixed? 2 cs
    if 60 < second then none
    else
      match cs with
      | '.' :: cs =>
        let fraction := cs.takeWhile Char.isDigit
        if fraction.isEmpty then none else some (cs.drop fraction.length)
      | cs => some cs
  | cs => some cs

def isOffset : List Char → Bool
  | [] => true
  | [c] => c == 'Z' || c == 'z'
  | c :: cs => (c == '+' || c == '-') && clockRest? cs == some []

def isDate (cs : List Char) : Bool :=
  match dateRest? cs with
  | some [] => true
  | some (c :: time) =>
    (c == 'T' || c == 't' || c == ' ') && (timeRest? time).any isOffset
  | none => timeRest? cs == some []

/-- The value that a plain text stands for. -/
def ofAtom? (cs : List Char) : Option Value :=
  let text := String.ofList cs
  if text == "true" then some (.boolean true)
  else if text == "false" then some (.boolean false)
  else if isDate cs then some (.date text)
  else
    match integer? cs with
    | some n => some (.integer n)
    | none => if isFloat cs then some (.float text) else none

def isAtomChar (c : Char) : Bool :=
  c.isAlphanum || c == '+' || c == '-' || c == '_' || c == '.' || c == ':'

/-- A day and a time of day may have a blank between them. -/
def splitAtom (cs : List Char) : List Char × List Char :=
  let first := cs.takeWhile isAtomChar
  let rest := cs.drop first.length
  match rest with
  | ' ' :: c :: _ =>
    if dateRest? first == some [] && c.isDigit then
      let time := (rest.drop 1).takeWhile isAtomChar
      (first ++ ' ' :: time, rest.drop (time.length + 1))
    else (first, rest)
  | _ => (first, rest)

end Graft.Toml
