import Graft.Grammar.LineEnd

/-!
# Parsers

A parser moves a cursor over the source or fails.  The productions of the grammar refer to each
other through a `Productions` record; the whole grammar is the record obtained by tying the knot a
number of times that no source can exhaust.
-/

namespace Graft.Grammar

/-- Why a text is not a program. -/
inductive Fault where
  | unexpected
  /-- Brackets have no reading, so that no reading of what stands around them helps. -/
  | hopeless
  /-- The text ends within the body of a class. -/
  | openClass (place : Place)
  /-- A declaration runs into the next one on the same line. -/
  | missingSemicolon (place : Place)
deriving DecidableEq, Repr, Inhabited

abbrev Parser := StateT Cursor (Except Fault)

def unexpected {α : Type} : Parser α := throw .unexpected

/-- Moves to the next token and gives its place. -/
def start : Parser Cursor := do
  let cur := (← get).skip
  set cur
  return cur

/-- Moves to the start of an operand or a statement. -/
def operandStart : Parser Cursor := do
  let cur := (← get).skipToOperand
  set cur
  return cur

/-- Runs a parser, or leaves the cursor alone where it fails. -/
def attempt {α : Type} (p : Parser α) : Parser (Option α) := fun cur =>
  match p cur with
  | .ok (a, next) => .ok (some a, next)
  | .error _ => .ok (none, cur)

/-- The first of two parsers that succeeds. -/
def either {α : Type} (p q : Parser α) : Parser α := fun cur =>
  match p cur with
  | .ok result => .ok result
  | .error _ => q cur

/-- The first of two readings of a bracketed text that succeeds.  Where neither does, enclosing
brackets are not read in another way: they would meet the same brackets again, and the number of
readings would double with every level. -/
def eitherReading {α : Type} (p q : Parser α) : Parser α := fun cur =>
  match p cur with
  | .ok result => .ok result
  | .error .hopeless => .error .hopeless
  | .error _ =>
    match q cur with
    | .error .unexpected => .error .hopeless
    | result => result

/-- Runs a parser as long as `more` holds, at most `fuel` times. -/
def repeated {α : Type} (more : Cursor → Bool) (p : Parser α) : Nat → Parser (List α)
  | 0 => return []
  | fuel + 1 => do
    if more (← get) then
      let a ← p
      let as ← repeated more p fuel
      return a :: as
    else return []

/-- Runs a parser that consumes text as long as `more` holds. -/
def whileMore {α : Type} (more : Cursor → Bool) (p : Parser α) : Parser (List α) := do
  repeated more p ((← get).rest.length + 1)

/-- Expects a punctuator. -/
def mark (text : String) : Parser Unit := do
  match (← get).mark? with
  | some (found, next) => if found == text then set next else unexpected
  | none => unexpected

/-- Takes a punctuator if it is next. -/
def hasMark (text : String) : Parser Bool := do
  match (← get).mark? with
  | some (found, next) =>
    if found == text then
      set next
      return true
    else return false
  | none => return false

/-- Expects a word. -/
def keyword (text : String) : Parser Unit := do
  match (← get).word? with
  | some (found, next) => if found == text then set next else unexpected
  | none => unexpected

/-- Takes a word if it is next. -/
def hasKeyword (text : String) : Parser Bool := do
  match (← get).word? with
  | some (found, next) =>
    if found == text then
      set next
      return true
    else return false
  | none => return false

/-- Takes a lexeme of the given class, which starts at the cursor. -/
def lexeme (length? : List Char → Option Nat) : Parser String := do
  let cur ← get
  match length? cur.rest with
  | some n =>
    let next := cur.advance n
    set next
    return cur.textTo next
  | none => unexpected

/-- A node from a start to the cursor. -/
def node (origin : Cursor) (kind : Kind) (slots : List (Field × Slot)) : Parser Node := do
  return .mk kind (origin.spanTo (← get)) slots

/-- A node that keeps its source text. -/
def rawNode (origin : Cursor) : Parser Node := do
  let cur ← get
  return .raw (origin.textTo cur) (origin.spanTo cur)

/-- The next word as an identifier, reserved or not. -/
def anyName : Parser Node := do
  let origin ← start
  let name ← lexeme nameLength?
  return .identifier name (origin.spanTo (← get))

/-- The next word as the name of a variable. -/
def variableName : Parser Node := do
  if isReserved (← get).nextWord then unexpected
  anyName

/-- Ends a statement, by a semicolon or without. -/
def semicolon (afterOperand : Bool) : Parser Unit := do
  match (← get).automaticEnd? afterOperand with
  | some cur => set cur
  | none => mark ";"

/-- What an expression is, as far as what may be done with it depends on that. -/
inductive Form where
  | name
  | member
  | group
  /-- An array or object, which may turn out to be a pattern. -/
  | literal
  | other
deriving DecidableEq, Repr, Inhabited

/-- Something that has been read as an expression.  Its own span leaves out parentheses around
it; `origin` is where the text starts, parentheses included. -/
structure Operand where
  node : Node
  origin : Cursor
  form : Form

/-- The productions that others refer to.  The flag of `operation` says whether a line end may
end the expression; its number is the least binding strength of an operator it takes. -/
structure Productions where
  operation : Nat → Bool → Parser Operand
  construct : Parser Operand
  pattern : Parser Node
  element : Parser Node
  statement : Parser Node

/-- The grammar that reads nothing. -/
def Productions.none : Productions :=
  ⟨fun _ _ => unexpected, unexpected, unexpected, unexpected, unexpected⟩

/-- An expression without commas at its top. -/
def Productions.expression (g : Productions) (lineEnds : Bool) : Parser Operand :=
  g.operation 0 lineEnds

/-- Expressions separated by commas; more than one of them make a sequence. -/
def Productions.expressions (g : Productions) (lineEnds : Bool) : Parser Node := do
  let first ← g.expression lineEnds
  let more ← whileMore (fun cur => cur.nextMark == ",") do
    mark ","
    g.expression lineEnds
  if more.isEmpty then return first.node
  node first.origin .sequenceExpression
    [(.expressions, .list (first.node :: more.map Operand.node))]

/-- Expressions in parentheses. -/
def Productions.parenthesized (g : Productions) : Parser Node := do
  mark "("
  let inner ← g.expressions false
  mark ")"
  return inner

/-- Statements in braces. -/
def Productions.block (g : Productions) : Parser Node := do
  let origin ← start
  mark "\x7b"
  let body ← whileMore (fun cur => cur.nextMark != "\x7d") g.statement
  mark "\x7d"
  node origin .blockStatement [(.body, .list body)]

end Graft.Grammar
