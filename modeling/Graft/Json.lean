import Graft.Number.Shortest

/-!
# JSON text

Values with ordered objects, and their compact and indented text.  Numbers are natural numbers or
floating point numbers; a floating point number is written with the fewest digits that read back.
-/

namespace Graft

inductive Json where
  | null
  | bool (value : Bool)
  | nat (value : Nat)
  | float (value : Binary64)
  | str (value : String)
  | arr (items : List Json)
  | obj (entries : List (String × Json))

namespace Json

/-- How a floating point number is laid out: positional notation while the exponent of its
leading digit lies in `[least, most)`, and otherwise a signed exponent. -/
structure FloatLayout where
  least : Int
  most : Int

def floatLayout : FloatLayout := ⟨-5, 16⟩

def zeros (n : Nat) : String := String.ofList (List.replicate n '0')

/-- Digits with the point after the first `whole` of them. -/
def pointed (digits : String) (whole : Nat) : String :=
  let cs := digits.toList
  if cs.length ≤ whole then digits ++ zeros (whole - cs.length) ++ ".0"
  else String.ofList (cs.take whole) ++ "." ++ String.ofList (cs.drop whole)

/-- The text of a positive finite number from its shortest decimal. -/
def decimalText (layout : FloatLayout) (d : Binary64.Decimal) : String :=
  let digits := Nat.repr d.digits
  let lead := (digits.length : Int) - 1 + d.exponent
  if layout.least ≤ lead ∧ lead < layout.most then
    if 0 ≤ lead then pointed digits (lead.toNat + 1)
    else "0." ++ zeros ((-lead).toNat - 1) ++ digits
  else
    let mantissa := if digits.length = 1 then digits else pointed digits 1
    let sign := if 0 ≤ lead then "+" else "-"
    mantissa ++ "e" ++ sign ++ Nat.repr lead.natAbs

/-- Infinities and NaN have no number text and are written `null`. -/
def floatText (x : Binary64) : String :=
  if !x.isFinite then "null"
  else
    let sign := if x.isNegative then "-" else ""
    if x.magnitude = 0 then sign ++ "0.0"
    else sign ++ decimalText floatLayout x.shortest

def hexDigit (n : Nat) : Char := Nat.digitChar n

def escapeChar (c : Char) : List Char :=
  if c = '"' then ['\\', '"']
  else if c = '\\' then ['\\', '\\']
  else if c = '\n' then ['\\', 'n']
  else if c = '\r' then ['\\', 'r']
  else if c = '\t' then ['\\', 't']
  else if c = '\x08' then ['\\', 'b']
  else if c = '\x0c' then ['\\', 'f']
  else if c.toNat < 0x20 then
    ['\\', 'u', '0', '0', hexDigit (c.toNat / 16), hexDigit (c.toNat % 16)]
  else [c]

def quote (s : String) : String :=
  "\"" ++ String.ofList (s.toList.flatMap escapeChar) ++ "\""

mutual

def compact : Json → String
  | null => "null"
  | bool b => if b then "true" else "false"
  | nat n => Nat.repr n
  | float x => floatText x
  | str s => quote s
  | arr items => "[" ++ ",".intercalate (compactItems items) ++ "]"
  | obj entries => "\x7b" ++ ",".intercalate (compactEntries entries) ++ "\x7d"
termination_by structural j => j

def compactItems : List Json → List String
  | [] => []
  | item :: rest => compact item :: compactItems rest
termination_by structural js => js

def compactEntries : List (String × Json) → List String
  | [] => []
  | (key, value) :: rest => (quote key ++ ":" ++ compact value) :: compactEntries rest
termination_by structural es => es

end

def margin (level : Nat) : String := String.ofList (List.replicate (2 * level) ' ')

/-- Items on lines of their own, one level deeper than the brackets; nothing between brackets
that hold nothing. -/
def bracketed (opening closing : String) (level : Nat) (items : List String) : String :=
  if items.isEmpty then opening ++ closing
  else
    let lines := items.map fun item => margin (level + 1) ++ item
    opening ++ "\n" ++ ",\n".intercalate lines ++ "\n" ++ margin level ++ closing

mutual

def indented (level : Nat) : Json → String
  | null => "null"
  | bool b => if b then "true" else "false"
  | nat n => Nat.repr n
  | float x => floatText x
  | str s => quote s
  | arr items => bracketed "[" "]" level (indentedItems (level + 1) items)
  | obj entries => bracketed "\x7b" "\x7d" level (indentedEntries (level + 1) entries)
termination_by structural j => j

def indentedItems (level : Nat) : List Json → List String
  | [] => []
  | item :: rest => indented level item :: indentedItems level rest
termination_by structural js => js

def indentedEntries (level : Nat) : List (String × Json) → List String
  | [] => []
  | (key, value) :: rest =>
    (quote key ++ ": " ++ indented level value) :: indentedEntries level rest
termination_by structural es => es

end

def pretty (j : Json) : String := indented 0 j

mutual

/-- The same value with the entries of all objects in the order of their keys. -/
def sorted : Json → Json
  | null => null
  | bool b => bool b
  | nat n => nat n
  | float x => float x
  | str s => str s
  | arr items => arr (sortedItems items)
  | obj entries => obj ((sortedEntries entries).mergeSort fun a b => decide (a.1 ≤ b.1))
termination_by structural j => j

def sortedItems : List Json → List Json
  | [] => []
  | item :: rest => item.sorted :: sortedItems rest
termination_by structural js => js

def sortedEntries : List (String × Json) → List (String × Json)
  | [] => []
  | (key, value) :: rest => (key, value.sorted) :: sortedEntries rest
termination_by structural es => es

end

end Json
end Graft
