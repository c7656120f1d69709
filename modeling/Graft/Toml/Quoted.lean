import Graft.Toml.Atom

/-!
# TOML strings

Strings in double quotes have escapes, those in single quotes have none.  Three quotes open a
string that may span lines; a line end right behind them is left out.
-/

namespace Graft.Toml

def isControl (c : Char) : Bool := (c.toNat < 0x20 && c != '\t') || c.toNat == 0x7f

/-- The text behind a line end. -/
def lineEnd? : List Char → Option (List Char)
  | '\n' :: cs => some cs
  | '\r' :: '\n' :: cs => some cs
  | _ => none

def isInlineBlank (c : Char) : Bool := c == ' ' || c == '\t'

/-- The character of an escape by code point. -/
def codePoint? (width : Nat) (cs : List Char) : Option (Char × List Char) :=
  let digits := cs.take width
  let code := digitsValue 16 digits
  if digits.length == width && digits.all Text.isHexDigit && Nat.isValidChar code then
    some (Char.ofNat code, cs.drop width)
  else none

/-- The character of an escape, read behind its backslash. -/
def escape? : List Char → Option (Char × List Char)
  | 'b' :: cs => some ('\x08', cs)
  | 't' :: cs => some ('\t', cs)
  | 'n' :: cs => some ('\n', cs)
  | 'f' :: cs => some ('\x0c', cs)
  | 'r' :: cs => some ('\r', cs)
  | 'e' :: cs => some ('\x1b', cs)
  | '"' :: cs => some ('"', cs)
  | '\\' :: cs => some ('\\', cs)
  | 'x' :: cs => codePoint? 2 cs
  | 'u' :: cs => codePoint? 4 cs
  | 'U' :: cs => codePoint? 8 cs
  | _ => none

/-- The kind of a string: its quote, and whether it may span lines. -/
structure Quoting where
  quote : Char
  spansLines : Bool

/-- A backslash before a line end joins it to the next text. -/
def joinedLine? (q : Quoting) (cs : List Char) : Option (List Char) :=
  if q.spansLines then
    (lineEnd? (cs.dropWhile isInlineBlank)).map fun cs =>
      cs.dropWhile fun c => isInlineBlank c || c == '\n' || c == '\r'
  else none

/-- Closes a string.  A string over lines closes with three quotes, and up to two more in front
of them belong to it. -/
def close? (q : Quoting) (cs : List Char) : Option (List Char × List Char) :=
  let quotes := (cs.takeWhile (· == q.quote)).length
  if q.spansLines then
    if quotes < 3 then none
    else
      let taken := min quotes 5
      some (List.replicate (taken - 3) q.quote, cs.drop taken)
  else if quotes = 0 then none
  else some ([], cs.drop 1)

/-- The content of a string and the text behind it.  The fuel bounds the number of characters. -/
def content? (q : Quoting) : Nat → List Char → Option (List Char × List Char)
  | 0, _ => none
  | _, [] => none
  | fuel + 1, c :: cs =>
    match close? q (c :: cs) with
    | some closed => some closed
    | none =>
      let plain (c : Char) (rest : List Char) : Option (List Char × List Char) :=
        (content? q fuel rest).map fun (content, rest) => (c :: content, rest)
      if c = '\\' && q.quote = '"' then
        match escape? cs with
        | some (c, rest) => plain c rest
        | none => (joinedLine? q cs).bind (content? q fuel)
      else if q.spansLines && (c = '\n' || (c = '\r' && cs.head? = some '\n')) then plain c cs
      else if isControl c then none
      else plain c cs

/-- A string and the text behind it; `cs` starts with its quote. -/
def string? (cs : List Char) : Option (String × List Char) := do
  let quote ← cs.head?
  let result ←
    if cs.take 3 == List.replicate 3 quote then
      let body := cs.drop 3
      content? ⟨quote, true⟩ (body.length + 1) ((lineEnd? body).getD body)
    else content? ⟨quote, false⟩ (cs.length + 1) (cs.drop 1)
  return (String.ofList result.1, result.2)

end Graft.Toml
