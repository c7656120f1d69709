import Graft.Toml.Quoted
import Graft.Toml.Table

/-!
# Reading TOML documents

A document is a sequence of lines with a key and its value or with the header of a table.  Arrays
and tables in braces may span lines and may hold comments.
-/

namespace Graft.Toml

def isBareKeyChar (c : Char) : Bool := c.isAlphanum || c == '_' || c == '-'

def skipBlanks (cs : List Char) : List Char := cs.dropWhile isInlineBlank

def simpleKey? (cs : List Char) : Option (String × List Char) :=
  match cs with
  | [] => none
  | c :: rest =>
    if c = '"' || c = '\'' then
      if rest.take 2 == [c, c] then none else string? cs
    else
      let name := cs.takeWhile isBareKeyChar
      if name.isEmpty then none else some (String.ofList name, cs.drop name.length)

/-- The names of a dotted key. -/
def keys? : Nat → List Char → Option (List String × List Char)
  | 0, _ => none
  | fuel + 1, cs => do
    let (key, rest) ← simpleKey? (skipBlanks cs)
    match skipBlanks rest with
    | '.' :: rest =>
      let (keys, rest) ← keys? fuel rest
      return (key :: keys, rest)
    | rest => return ([key], rest)

/-- The text from the end of a line on, behind blanks and a comment. -/
def lineTail? (cs : List Char) : Option (List Char) :=
  let tail? (cs : List Char) : Option (List Char) :=
    if cs.isEmpty || (lineEnd? cs).isSome then some cs else none
  match skipBlanks cs with
  | '#' :: cs => tail? (cs.dropWhile fun c => !isControl c)
  | cs => tail? cs

/-- Skips blanks, line ends and comments. -/
def skipLines? : Nat → List Char → Option (List Char)
  | 0, _ => none
  | fuel + 1, cs =>
    match skipBlanks cs with
    | '#' :: cs => do skipLines? fuel (← lineTail? ('#' :: cs))
    | cs =>
      match lineEnd? cs with
      | some rest => skipLines? fuel rest
      | none => some cs

mutual

/-- A value and the text behind it.  The fuel bounds the depth of brackets and the number of
items together. -/
def value? : Nat → List Char → Option (Value × List Char)
  | 0, _ => none
  | fuel + 1, cs =>
    match cs with
    | '"' :: _ | '\'' :: _ => (string? cs).map fun (s, rest) => (.string s, rest)
    | '[' :: rest => (items? fuel rest).map fun (items, rest) => (.array items, rest)
    | '\x7b' :: rest =>
      (entries? fuel [] rest).map fun (entries, rest) => (.table (entryValues entries), rest)
    | cs =>
      let (atom, rest) := splitAtom cs
      (ofAtom? atom).map fun v => (v, rest)

/-- The items of an array up to its closing bracket. -/
def items? : Nat → List Char → Option (List Value × List Char)
  | 0, _ => none
  | fuel + 1, cs => do
    let cs ← skipLines? (cs.length + 1) cs
    match cs with
    | ']' :: rest => return ([], rest)
    | cs =>
      let (value, rest) ← value? fuel cs
      match ← skipLines? (rest.length + 1) rest with
      | ',' :: rest =>
        let (values, rest) ← items? fuel rest
        return (value :: values, rest)
      | ']' :: rest => return ([value], rest)
      | _ => none

/-- The entries of a table up to its closing brace, added to those read before. -/
def entries? : Nat → Entries → List Char → Option (Entries × List Char)
  | 0, _, _ => none
  | fuel + 1, entries, cs => do
    let cs ← skipLines? (cs.length + 1) cs
    match cs with
    | '\x7d' :: rest => return (entries, rest)
    | cs =>
      let (keys, rest) ← keys? (cs.length + 1) cs
      let '=' :: rest := rest | none
      let (value, rest) ← value? fuel (skipBlanks rest)
      let entries ← entries.addValue keys value
      match ← skipLines? (rest.length + 1) rest with
      | ',' :: rest => entries? fuel entries rest
      | '\x7d' :: rest => return (entries, rest)
      | _ => none

end

/-- What has been read so far, and the path of the table that further keys belong to. -/
structure Draft where
  root : Entries := []
  current : List String := []

def Draft.header? (d : Draft) (cs : List Char) : Option (Draft × List Char) := do
  match cs with
  | '[' :: cs =>
    let (keys, rest) ← keys? (cs.length + 1) cs
    let ']' :: ']' :: rest := rest | none
    return (⟨← d.root.addElement keys, keys⟩, rest)
  | cs =>
    let (keys, rest) ← keys? (cs.length + 1) cs
    let ']' :: rest := rest | none
    return (⟨← d.root.addTable keys, keys⟩, rest)

def Draft.keyValue? (d : Draft) (cs : List Char) : Option (Draft × List Char) := do
  let (keys, rest) ← keys? (cs.length + 1) cs
  let '=' :: rest := rest | none
  let rest := skipBlanks rest
  let (value, rest) ← value? (2 * rest.length + 2) rest
  let root ← Entries.update false (fun _ entries => entries.addValue keys value) d.current
    .header d.root
  return ({ d with root }, rest)

/-- Reads lines to the end of the text. -/
def Draft.read? : Nat → Draft → List Char → Option Draft
  | 0, _, _ => none
  | fuel + 1, d, cs => do
    match ← skipLines? (cs.length + 1) cs with
    | [] => return d
    | '[' :: rest =>
      let (d, rest) ← d.header? rest
      read? fuel d (← lineTail? rest)
    | cs =>
      let (d, rest) ← d.keyValue? cs
      read? fuel d (← lineTail? rest)

/-- Reads a document; a byte order mark may stand in front of it. -/
def parse? (text : String) : Option Value :=
  let cs := match text.toList with
    | '\ufeff' :: cs => cs
    | cs => cs
  (Draft.read? (cs.length + 1) {} cs).map fun d => .table (entryValues d.root)

end Graft.Toml
