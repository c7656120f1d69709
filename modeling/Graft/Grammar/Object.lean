import Graft.Grammar.Literal

/-!
# Lists and objects

Comma separated lists of expressions in brackets, and the members of object literals.
-/

namespace Graft.Grammar

def spread (g : Productions) : Parser Node := do
  let origin ← start
  mark "..."
  let inner ← g.expression false
  node origin .spreadElement [(.argument, .node inner.node)]

/-- An item of a bracketed list: a value, or the comma behind an empty place. -/
inductive Item where
  | value (node : Node)
  | hole (comma : Span)

def Item.value? : Item → Option Node
  | value n => some n
  | hole _ => none

/-- Holes of an array are elisions. -/
def Item.element : Item → Node
  | value n => n
  | hole comma => .mk .elision comma []

/-- The items up to a closing bracket; `filled` says that the last item has a value. -/
def items (g : Productions) (closing : String) : Bool → Nat → Parser (List Item)
  | _, 0 => unexpected
  | filled, fuel + 1 => do
    let cur ← start
    let next := cur.nextMark
    if next == closing then
      mark closing
      return []
    else if next == "," then
      mark ","
      let comma := cur.spanTo (← get)
      let rest ← items g closing false fuel
      return if filled then rest else .hole comma :: rest
    else if filled then unexpected
    else
      let value ← if next == "..." then spread g else Operand.node <$> g.expression false
      let rest ← items g closing true fuel
      return .value value :: rest

/-- Arguments of a call; empty places are dropped. -/
def arguments (g : Productions) : Parser (List Node) := do
  mark "("
  let list ← items g ")" false ((← get).rest.length + 1)
  return list.filterMap Item.value?

def array (g : Productions) : Parser Node := do
  let origin ← start
  mark "["
  let list ← items g "]" false ((← get).rest.length + 1)
  node origin .arrayExpression [(.elements, .list (list.map Item.element))]

/-- A name that is private to a class, with its mark. -/
def privateName : Parser Node := do
  let origin ← start
  match origin.rest with
  | '#' :: _ =>
    set (origin.advance 1)
    let _ ← lexeme nameLength?
    let stop ← get
    return .identifier (origin.textTo stop) (origin.spanTo stop)
  | _ => unexpected

/-- A key of a property may start here. -/
def startsKey (cur : Cursor) : Bool :=
  match cur.nextChar with
  | some c =>
    c.isDigit || c == '"' || c == '\'' || c == '[' || c == '#' || c == '.' ||
      cur.word?.isSome
  | none => false

/-- The key of a property, and whether it is computed. -/
def propertyKey (g : Productions) : Parser (Node × Bool) := do
  let cur ← start
  match cur.rest with
  | '[' :: _ =>
    mark "["
    let inner ← g.expression false
    mark "]"
    return (inner.node, true)
  | '#' :: _ => return (← privateName, false)
  | c :: _ =>
    if c = '"' ∨ c = '\'' then return (← stringLiteral, false)
    else if c.isDigit || c == '.' then return (← numberLiteral, false)
    else return (← anyName, false)
  | [] => unexpected

/-- Takes a word in front of a member if the member goes on behind it. -/
def modifier (word : String) (goesOn : Cursor → Bool) : Parser Bool := do
  match (← get).word? with
  | some (found, next) =>
    if found == word && goesOn next then
      set next
      return true
    else return false
  | none => return false

/-- The words and marks in front of the name of a method. -/
structure MethodHead where
  isStatic : Bool
  async : Bool
  generator : Bool
  accessor : String

/-- Nothing stands in front of the name. -/
def MethodHead.isPlain (head : MethodHead) : Bool :=
  !head.isStatic && !head.async && !head.generator && head.accessor == "init"

def methodHead : Parser MethodHead := do
  let goesOn (cur : Cursor) : Bool := startsKey cur || cur.nextMark == "*"
  let isStatic ← modifier "static" goesOn
  let async ← modifier "async" goesOn
  if ← hasMark "*" then return ⟨isStatic, async, true, "init"⟩
  if ← modifier "get" startsKey then return ⟨isStatic, async, false, "get"⟩
  if ← modifier "set" startsKey then return ⟨isStatic, async, false, "set"⟩
  return ⟨isStatic, async, false, "init"⟩

/-- A parameter: a pattern, perhaps with a default value. -/
def parameter (g : Productions) : Parser Node := do
  let origin ← start
  let left ← g.pattern
  if ← hasMark "=" then
    let right ← g.expression false
    node origin .assignmentPattern [(.left, .node left), (.right, .node right.node)]
  else return left

/-- Parameters in parentheses; a comma may follow the last one. -/
def parameters (g : Productions) : Parser (List Node) := do
  mark "("
  let list ← whileMore (fun cur => cur.nextMark != ")") do
    let p ← parameter g
    if (← get).nextMark != ")" then mark ","
    return p
  mark ")"
  return list

def functionSlots (name : Option Node) (params : List Node) (body : Node)
    (async generator : Bool) : List (Field × Slot) :=
  [(.id, .ofOption name), (.params, .list params), (.body, .node body),
    (.async, .flag async), (.generator, .flag generator)]

def propertySlots (key value : Node) (accessor : String) (computed shorthand method : Bool) :
    List (Field × Slot) :=
  [(.key, .node key), (.value, .node value), (.kind, .text accessor),
    (.computed, .flag computed), (.shorthand, .flag shorthand), (.method, .flag method)]

def methodMember (g : Productions) (origin : Cursor) (head : MethodHead) (key : Node)
    (computed : Bool) : Parser Node := do
  let params ← parameters g
  let body ← g.block
  let value ← node origin .functionExpression
    (functionSlots none params body head.async head.generator)
  node origin .property
    (propertySlots key value head.accessor computed false (head.accessor == "init"))

/-- A member of an object literal: a spread, a method, a property or a name that stands for
both key and value. -/
def objectMember (g : Productions) : Parser Node := do
  let origin ← start
  if origin.nextMark == "..." then spread g
  else
    let head ← methodHead
    let (key, computed) ← propertyKey g
    let after ← get
    if after.nextMark == "(" then methodMember g origin head key computed
    else if !head.isPlain then unexpected
    else if ← hasMark ":" then
      let value ← g.expression false
      node origin .property (propertySlots key value.node "init" computed false false)
    else
      match key.name? with
      | some name =>
        if computed || isReserved name || name.startsWith "#" then unexpected
        else node origin .property (propertySlots key key "init" false true false)
      | none => unexpected

def object (g : Productions) : Parser Node := do
  let origin ← start
  mark "\x7b"
  let members ← whileMore (fun cur => cur.nextMark != "\x7d") do
    if ← hasMark "," then return none
    let member ← objectMember g
    if (← get).nextMark != "\x7d" then mark ","
    return some member
  mark "\x7d"
  node origin .objectExpression [(.properties, .list (members.filterMap id))]

/-- Punctuators that can only go on with an expression, never start a statement. -/
def continuesOnly (cur : Cursor) : Bool :=
  let next := cur.nextMark
  let word := cur.nextWord
  [".", "?.", "*", "**", "%", "&", "&&", "|", "||", "^", "=", "==", "===", "!=", "!==", ",", "?",
    "??", ">", ">=", ">>", ">>>", "<=", "<<", "+=", "-=", "*=", "/=", "%=", "**=", "<<=", ">>=",
    ">>>=", "&=", "|=", "^=", "&&=", "||=", "??="].contains next ||
    word == "in" || word == "instanceof"

/-- Reserved words with which a statement may start. -/
def statementWords : List String :=
  ["break", "class", "const", "continue", "debugger", "delete", "do", "false", "for", "function",
    "if", "import", "new", "null", "return", "super", "switch", "this", "throw", "true", "try",
    "typeof", "var", "void", "while", "with"]

/-- The text behind an opening brace reads as the first member of an object: a spread, a method,
or a key with a colon.  A word that may start a statement is no key here. -/
def opensMember (cur : Cursor) : Bool :=
  let next := cur.nextMark
  if next == "..." || next == "*" || next == "[" || next == "," then true
  else
    let colonOrCall (cur : Cursor) : Bool := cur.nextMark == ":" || cur.nextMark == "("
    match cur.word? with
    | some (word, after) =>
      !statementWords.contains word && !(word == "async" && after.nextWord == "function") &&
        (colonOrCall after ||
          (["get", "set", "async", "static"].contains word &&
            (startsKey after || after.nextMark == "*")))
    | none =>
      let here := cur.skip
      match stringLength? here.rest with
      | some n => colonOrCall (here.advance n)
      | none =>
        match numberLength? here.rest with
        | some n => colonOrCall (here.advance n)
        | none => false

end Graft.Grammar
