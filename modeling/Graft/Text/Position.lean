/-!
# Positions in a text

Byte offsets into UTF-8 text, turned into pieces of the text and into lines and columns.
-/

namespace Graft.Text

/-- Splits a text behind so many bytes, at the next end of a character. -/
def splitBytes : Nat → List Char → List Char × List Char
  | 0, cs => ([], cs)
  | _, [] => ([], [])
  | n, c :: cs =>
    let (before, after) := splitBytes (n - c.utf8Size) cs
    (c :: before, after)

/-- The bytes of a text. -/
def bytes (cs : List Char) : List UInt8 := cs.flatMap String.utf8EncodeChar

/-- Cuts a text behind so many bytes.  There is no cut inside a character. -/
def cut? : Nat → List Char → Option (List Char × List Char)
  | 0, cs => some ([], cs)
  | _ + 1, [] => none
  | n + 1, c :: cs =>
    if n + 1 < c.utf8Size then none
    else (cut? (n + 1 - c.utf8Size) cs).map fun (before, after) => (c :: before, after)

/-- The text between two byte offsets. -/
def slice (text : String) (start stop : Nat) : List Char :=
  (splitBytes (stop - start) (splitBytes start text.toList).2).1

/-- The line and the column of a byte offset, both from 1; columns count characters. -/
def lineColumn (text : String) (offset : Nat) : Nat × Nat :=
  let before := (splitBytes offset text.toList).1
  (before.count '\n' + 1, (before.reverse.takeWhile (· ≠ '\n')).length + 1)

/-- The first line of a text without its line end. -/
def firstLine (cs : List Char) : List Char :=
  let line := cs.takeWhile (· ≠ '\n')
  if line.length < cs.length && line.getLast? = some '\r' then line.dropLast else line

end Graft.Text
