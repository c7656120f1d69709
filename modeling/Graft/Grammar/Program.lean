import Graft.Grammar.Statement

/-!
# Programs

The grammar as a whole, and reading a source text into a tree.  A text that is no program is
reported once, by its first token or by what is missing.
-/

namespace Graft.Grammar

/-- The productions that refer to those of `g`. -/
def unrolled (g : Productions) : Productions :=
  ⟨operation g, construct g, pattern g, elementBody g, statement g⟩

/-- The grammar for a text of some length.  No more than two productions follow each other
without text between them, so this depth is never reached. -/
def grammar (length : Nat) : Productions := Nat.repeat unrolled (4 * length + 16) .none

/-- The first line of a script may name its interpreter. -/
def interpreterLine : Parser (List Node) := do
  let origin ← start
  if startsWith origin.rest "#!" then
    set (origin.advance (origin.rest.takeWhile (· ≠ '\n')).length)
    return [← rawNode origin]
  else return []

/-- A program spans from its first token or comment to the end of the source. -/
def program (g : Productions) : Parser Node := do
  let cur ← get
  let origin := cur.advance (cur.rest.takeWhile Text.isBlank).length
  let head ← interpreterLine
  let body ← whileMore (fun cur => !cur.skipToOperand.atEnd) g.statement
  let stop ← get
  set (stop.advance stop.rest.length)
  node origin .program [(.body, .list (head ++ body))]

end Graft.Grammar

namespace Graft

/-- A syntax error and its place: byte offset, and line and byte column from 1. -/
structure SyntaxError where
  index : Nat
  line : Nat
  column : Nat
  description : String
deriving DecidableEq, Repr, Inhabited

namespace SyntaxError

def message (e : SyntaxError) : String :=
  s!"syntax error at line {e.line}, column {e.column}: {e.description}"

open Grammar

def atPlace (place : Place) (description : String) : SyntaxError :=
  ⟨place.offset, place.line, place.column + 1, description⟩

/-- The first token of a text, as far as it can be told without its context. -/
def firstToken (cur : Cursor) : String :=
  let lengths := [nameLength? cur.rest, numberLength? cur.rest,
    (punctuator? cur.rest).map String.length]
  match lengths.findSome? id with
  | some n => cur.textTo (cur.advance n)
  | none => String.ofList (cur.rest.take 1)

/-- Reports a fault of a source. -/
def ofFault (source : String) : Fault → SyntaxError
  | .openClass place => .atPlace place "Unexpected end of input"
  | .missingSemicolon place => .atPlace place "Missing ';'"
  | .unexpected | .hopeless =>
    let cur := (Cursor.ofText source).skip
    if cur.atEnd then .atPlace cur.place "Unexpected end of input"
    else .atPlace cur.place ("Unexpected token " ++ firstToken cur)

end SyntaxError

/-- Reads a program. -/
def parse (source : String) : Except SyntaxError Node :=
  let cur := Grammar.Cursor.ofText source
  match (Grammar.program (Grammar.grammar cur.rest.length)).run cur with
  | .ok (program, _) => .ok program
  | .error fault => .error (.ofFault source fault)

end Graft
