import Graft.Text.Digit

/-!
# Quoted strings

A string value is written between single or double quotes, with escapes for the quote, the
backslash and the characters that may not stand in a literal.  Decoding resolves the escapes of a
written literal.
-/

namespace Graft

inductive QuoteStyle where
  | single
  | double
deriving DecidableEq, Repr, Inhabited

def QuoteStyle.char : QuoteStyle → Char
  | single => '\''
  | double => '"'

namespace Text.Quoted

def encodeChar (quote c : Char) : List Char :=
  if c = '\\' then ['\\', '\\']
  else if c = '\n' then ['\\', 'n']
  else if c = '\r' then ['\\', 'r']
  else if c = '\t' then ['\\', 't']
  else if c = '\x08' then ['\\', 'b']
  else if c = '\x0c' then ['\\', 'f']
  else if c = '\x0b' then ['\\', 'v']
  else if c = '\x00' then ['\\', '0']
  else if c = '\u2028' then ['\\', 'u', '2', '0', '2', '8']
  else if c = '\u2029' then ['\\', 'u', '2', '0', '2', '9']
  else if c = quote then ['\\', c]
  else [c]

def encodeChars (quote : Char) (cs : List Char) : List Char :=
  quote :: cs.flatMap (encodeChar quote) ++ [quote]

/-- Writes a value as a literal. -/
def encode (value : String) (style : QuoteStyle) : String :=
  String.ofList (encodeChars style.char value.toList)

def hexNumber? (digits : List Char) : Option Nat :=
  if digits.isEmpty then none
  else digits.foldlM (fun n c => (digit? c).map (n * 16 + ·)) 0

/-- The character of a hexadecimal escape; the replacement character where there is none. -/
def codePoint (digits : List Char) : Char :=
  match hexNumber? digits with
  | some n => if n.isValidChar then Char.ofNat n else '\ufffd'
  | none => '\ufffd'

inductive DecodeMode where
  | plain
  | escape
  /-- Behind `\u`. -/
  | unicode
  /-- Digits still to come, and those read. -/
  | hex (left : Nat) (digits : List Char)
  | braced (digits : List Char)

/-- A zero before a digit stands for itself, and so does every other character without a
meaning of its own.  A line end is dropped. -/
def decodeFrom : DecodeMode → List Char → List Char
  | .plain, [] => []
  | .plain, c :: rest =>
    if c = '\\' then decodeFrom .escape rest else c :: decodeFrom .plain rest
  | .escape, [] => []
  | .escape, '\r' :: '\n' :: rest => decodeFrom .plain rest
  | .escape, c :: rest =>
    if c = 'n' then '\n' :: decodeFrom .plain rest
    else if c = 't' then '\t' :: decodeFrom .plain rest
    else if c = 'r' then '\r' :: decodeFrom .plain rest
    else if c = 'b' then '\x08' :: decodeFrom .plain rest
    else if c = 'f' then '\x0c' :: decodeFrom .plain rest
    else if c = 'v' then '\x0b' :: decodeFrom .plain rest
    else if c = '0' then
      (if (rest.head?.map Char.isDigit).getD false then '0' else '\x00') ::
        decodeFrom .plain rest
    else if c = 'x' then decodeFrom (.hex 2 []) rest
    else if c = 'u' then decodeFrom .unicode rest
    else if c = '\n' ∨ c = '\r' then decodeFrom .plain rest
    else c :: decodeFrom .plain rest
  | .unicode, [] => [codePoint []]
  | .unicode, c :: rest =>
    if c = '\x7b' then decodeFrom (.braced []) rest else decodeFrom (.hex 3 [c]) rest
  | .hex _ digits, [] => [codePoint digits]
  | .hex left digits, c :: rest =>
    if left ≤ 1 then codePoint (digits ++ [c]) :: decodeFrom .plain rest
    else decodeFrom (.hex (left - 1) (digits ++ [c])) rest
  | .braced digits, [] => [codePoint digits]
  | .braced digits, c :: rest =>
    if c = '\x7d' then codePoint digits :: decodeFrom .plain rest
    else decodeFrom (.braced (digits ++ [c])) rest

/-- The value of a literal, given with its quotes. -/
def decode (literal : String) : String :=
  String.ofList (decodeFrom .plain (literal.toList.drop 1).dropLast)

end Text.Quoted
end Graft
