import Graft.Print.Doc
import Graft.Print.Strength

/-!
# Printing trees

A tree is printed from its leaves up.  For each node all the ways its parent may ask for it are
given at once: as an operand, as a statement, as a block, and as the special parts of
declarations, `switch`, `try` and methods.  Comments and layout of the source are not kept, and
parentheses are put back where binding strength asks for them.
-/

namespace Graft

/-- A node together with the ways to print it. -/
structure Printed where
  node : Node
  /-- Without parentheses around it. -/
  bare : Doc
  statement : Doc
  /-- Its statements in braces. -/
  block : Doc
  /-- Its parameters and its body, as a method prints them. -/
  methodTail : Doc
  /-- As a part of a declaration, and as the first part of the head of a loop. -/
  declared : Doc
  loopHead : Doc
  /-- As the `catch` part of `try`, and as a case of `switch`. -/
  handler : Doc
  switchCase : Doc
  /-- A call stands at the left end of its chain of members. -/
  startsWithCall : Bool

/-- As an operand, in parentheses when it is weaker than the given strength. -/
def Printed.operand (c : Printed) (least : Nat) : Doc :=
  if Strength.of c.node < least then c.bare.parenthesized else c.bare

inductive PrintedSlot where
  | node (printed : Printed)
  | list (printed : List Printed)
  | leaf

/-- A node whose children have been printed. -/
structure Parts where
  style : Style
  node : Node
  slots : List (Field × PrintedSlot)

namespace Parts

open Doc

def kind (p : Parts) : Kind := p.node.kind

def child? (p : Parts) (field : Field) : Option Printed :=
  match p.slots.lookup field with
  | some (.node c) => some c
  | _ => none

def list (p : Parts) (field : Field) : List Printed :=
  match p.slots.lookup field with
  | some (.list cs) => cs
  | _ => []

/-- A child in some form; nothing where there is no child. -/
def part (p : Parts) (field : Field) (form : Printed → Doc) : Doc :=
  match p.child? field with
  | some c => form c
  | none => []

/-- A child as an operand of at least some strength. -/
def operand (p : Parts) (field : Field) (least : Nat) : Doc :=
  p.part field fun c => c.operand least

/-- A child as an operand behind some text; nothing where there is no child. -/
def operandAfter (p : Parts) (text : String) (field : Field) (least : Nat) : Doc :=
  p.part field fun c => ofText text ++ c.operand least

/-- A child as a block behind some text. -/
def blockAfter (p : Parts) (text : String) (field : Field) : Doc :=
  p.part field fun c => ofText text ++ c.block

def operands (p : Parts) (field : Field) : Doc :=
  commaList ((p.list field).map fun c => c.operand Strength.assignment)

def text (p : Parts) (field : Field) (missing : String) : String :=
  (p.node.text? field).getD missing

/-- Each statement of a list on a line of its own. -/
def lines (p : Parts) (field : Field) : Doc :=
  (p.list field).flatMap fun c => newline ++ c.statement

def block (p : Parts) : Doc :=
  ofText "\x7b" ++ nest (p.lines .body) ++ newline ++ ofText "\x7d"

/-- A block stays on the line; any other statement goes one level deeper on the next. -/
def substatement (c : Printed) : Doc :=
  if c.node.kind = .blockStatement then ofText " " ++ c.block
  else nest (newline ++ c.statement)

def params (p : Parts) : Doc := parenthesized (p.operands .params)

def methodTail (p : Parts) : Doc := p.params ++ ofText " " ++ p.part .body Printed.block

/-- A space stands in for the name of an expression without one, if the style asks for it. -/
def function (p : Parts) (isExpression : Bool) : Doc :=
  let name := match p.child? .id with
    | some id => ofText " " ++ id.operand Strength.primary
    | none => if isExpression && p.style.functionSpace then ofText " " else []
  ofText (if p.node.flag .async then "async function" else "function") ++
    (if p.node.flag .generator then ofText "*" else []) ++ name ++ p.methodTail

def declaration (p : Parts) : Doc :=
  ofText (p.text .kind "var" ++ " ") ++ commaList ((p.list .declarations).map Printed.declared)

def declarator (p : Parts) : Doc :=
  p.operand .id Strength.assignment ++ p.operandAfter " = " .init Strength.assignment

def raw (p : Parts) : Doc := ofText (p.text .text "")

/-- An expression that reads as a block, a function or a class at the start of a statement is
put in parentheses. -/
def expressionStatement (p : Parts) : Doc :=
  let inner := p.operand .expression Strength.sequence
  let ambiguous := inner.startsWithText "\x7b" || inner.startsWithWord "function" ||
    inner.startsWithWord "class"
  (if ambiguous then parenthesized inner else inner) ++ ofText ";"

def loopBody (p : Parts) : Doc := p.part .body substatement

def ifStatement (p : Parts) : Doc :=
  let inBlock := (p.child? .consequent).any fun c => c.node.kind = .blockStatement
  let alternate : Doc := match p.child? .alternate with
    | some a =>
      (if inBlock then ofText " else" else newline ++ ofText "else") ++
        (if a.node.kind = .ifStatement then ofText " " ++ a.statement else substatement a)
    | none => []
  ofText "if (" ++ p.operand .test Strength.sequence ++ ofText ")" ++
    p.part .consequent substatement ++ alternate

def forStatement (p : Parts) : Doc :=
  ofText "for (" ++ p.part .init Printed.loopHead ++ ofText ";" ++
    p.operandAfter " " .test Strength.sequence ++ ofText ";" ++
    p.operandAfter " " .update Strength.sequence ++ ofText ")" ++ p.loopBody

def valueLoop (p : Parts) (word : String) : Doc :=
  ofText "for (" ++ p.part .left Printed.loopHead ++ ofText word ++
    p.operand .right Strength.sequence ++ ofText ")" ++ p.loopBody

def doWhileStatement (p : Parts) : Doc :=
  let inBlock := (p.child? .body).any fun c => c.node.kind = .blockStatement
  ofText "do" ++ p.loopBody ++ (if inBlock then ofText " " else newline) ++
    ofText "while (" ++ p.operand .test Strength.sequence ++ ofText ");"

def jump (p : Parts) (word : String) : Doc :=
  ofText word ++ p.operandAfter " " .label Strength.primary ++ ofText ";"

def tryStatement (p : Parts) : Doc :=
  ofText "try " ++ p.part .block Printed.block ++ p.part .handler Printed.handler ++
    p.blockAfter " finally " .finalizer

def handler (p : Parts) : Doc :=
  let param := p.part .param fun c =>
    ofText " " ++ parenthesized (c.operand Strength.assignment)
  ofText " catch" ++ param ++ p.blockAfter " " .body

def switchCase (p : Parts) : Doc :=
  let label := match p.child? .test with
    | some test => ofText "case " ++ test.operand Strength.sequence ++ ofText ":"
    | none => ofText "default:"
  label ++ nest (p.lines .consequent)

def switchStatement (p : Parts) : Doc :=
  let cases := (p.list .cases).flatMap fun c => newline ++ c.switchCase
  ofText "switch (" ++ p.operand .discriminant Strength.sequence ++ ofText ") \x7b" ++
    nest cases ++ newline ++ ofText "\x7d"

/-- The statement that a kind of statement prints as. -/
def ownStatement? (p : Parts) : Option Doc :=
  match p.kind with
  | .expressionStatement => some p.expressionStatement
  | .blockStatement => some p.block
  | .emptyStatement => some (ofText ";")
  | .debuggerStatement => some (ofText "debugger;")
  | .variableDeclaration => some (p.declaration ++ ofText ";")
  | .functionDeclaration => some (p.function false)
  | .returnStatement =>
    some (ofText "return" ++ p.operandAfter " " .argument Strength.sequence ++ ofText ";")
  | .throwStatement =>
    some (ofText "throw " ++ p.operand .argument Strength.sequence ++ ofText ";")
  | .ifStatement => some p.ifStatement
  | .forStatement => some p.forStatement
  | .forInStatement => some (p.valueLoop " in ")
  | .forOfStatement => some (p.valueLoop " of ")
  | .whileStatement =>
    some (ofText "while (" ++ p.operand .test Strength.sequence ++ ofText ")" ++ p.loopBody)
  | .doWhileStatement => some p.doWhileStatement
  | .breakStatement => some (p.jump "break")
  | .continueStatement => some (p.jump "continue")
  | .tryStatement => some p.tryStatement
  | .switchStatement => some p.switchStatement
  | .labeledStatement =>
    some (p.operand .label Strength.primary ++ ofText ": " ++ p.part .body Printed.statement)
  | .raw => some p.raw
  | _ => none

def literal (p : Parts) : String :=
  match p.node.scalar? .value with
  | some (.str value) => Text.Quoted.encode value p.style.quotes
  | some scalar => scalar.content
  | none => "null"

/-- An elision at the end needs a comma of its own. -/
def array (p : Parts) : Doc :=
  let endsOpen := (p.list .elements).getLast?.any fun c => c.node.kind = .elision
  ofText "[" ++ p.operands .elements ++ ofText (if endsOpen then ",]" else "]")

def object (p : Parts) : Doc :=
  let properties := (p.list .properties).map fun c => newline ++ c.operand Strength.assignment
  if properties.isEmpty then ofText "\x7b\x7d"
  else ofText "\x7b" ++ nest (joinWith (ofText ",") properties) ++ newline ++ ofText "\x7d"

def propertyKey (p : Parts) : Doc :=
  if p.node.flag .computed then
    p.part .key fun key => ofText "[" ++ key.operand Strength.assignment ++ ofText "]"
  else p.operand .key Strength.primary

/-- A property stays in its short form while its value is still the name of its key. -/
def property (p : Parts) : Doc :=
  let accessor := p.text .kind "init"
  let keyName := (p.child? .key).bind fun key => key.node.name?
  let plain := p.propertyKey ++ ofText ": " ++ p.operand .value Strength.assignment
  match p.child? .value with
  | some value =>
    if p.node.flag .shorthand && value.node.name? == keyName then
      value.operand Strength.assignment
    else if (p.node.flag .method || accessor != "init") &&
        value.node.kind = .functionExpression then
      (if accessor != "init" then ofText (accessor ++ " ") else []) ++
        (if value.node.flag .async then ofText "async " else []) ++
        (if value.node.flag .generator then ofText "*" else []) ++
        p.propertyKey ++ value.methodTail
    else plain
  | none => plain

def arrow (p : Parts) : Doc :=
  let params := match p.list .params with
    | [single] =>
      if single.node.kind = .identifier then single.operand Strength.primary else p.params
    | _ => p.params
  let body := match p.child? .body with
    | some body =>
      if body.node.kind = .blockStatement then body.block
      else if body.node.kind = .objectExpression then
        parenthesized (body.operand Strength.assignment)
      else body.operand Strength.assignment
    | none => ofText "\x7b\x7d"
  (if p.node.flag .async then ofText "async " else []) ++ params ++ ofText " => " ++ body

/-- A number of digits alone, which a dot would extend. -/
def isBareInteger (n : Node) : Bool :=
  n.kind = .literal &&
    match n.scalar? .value with
    | some (.num _ raw) => raw.toList.all Char.isDigit
    | _ => false

def member (p : Parts) : Doc :=
  let object := p.part .object fun c =>
    let inner := c.operand Strength.call
    if isBareInteger c.node then parenthesized inner else inner
  let optional := p.node.flag .optional
  let property := p.part .property fun c =>
    if p.node.flag .computed then
      ofText (if optional then "?.[" else "[") ++ c.operand Strength.sequence ++ ofText "]"
    else ofText (if optional then "?." else ".") ++ c.operand Strength.primary
  object ++ property

def call (p : Parts) : Doc :=
  p.operand .callee Strength.call ++
    ofText (if p.node.flag .optional then "?.(" else "(") ++ p.operands .arguments ++ ofText ")"

def construct (p : Parts) : Doc :=
  let callee := p.part .callee fun c =>
    if c.startsWithCall then parenthesized (c.operand Strength.sequence)
    else c.operand Strength.construct
  ofText "new " ++ callee ++ parenthesized (p.operands .arguments)

/-- A sign stands apart from an operand that starts with the same sign. -/
def unary (p : Parts) : Doc :=
  let operator := p.text .operator ""
  let isWord := operator.toList.all Char.isAlpha
  let argument := p.part .argument fun c =>
    let inner := c.operand Strength.unary
    let fuses := (operator == "+" || operator == "-") && inner.startsWithText operator
    if fuses then ofText " " ++ inner else inner
  ofText operator ++ (if isWord then ofText " " else []) ++ argument

def update (p : Parts) : Doc :=
  let operator := ofText (p.text .operator "")
  if p.node.flag .prefixed then operator ++ p.operand .argument Strength.unary
  else p.operand .argument Strength.postfixed ++ operator

/-- The strength asked of an operand: `??` does not mix with the other logical operators. -/
def operandStrength (operator : String) (operand : Node) (least : Nat) : Nat :=
  if operand.kind = .logicalExpression then
    let inner := (operand.text? .operator).getD ""
    let mixes :=
      if operator == "??" then inner == "||" || inner == "&&"
      else if operator == "||" || operator == "&&" then inner == "??"
      else false
    if mixes then Strength.primary else least
  else least

/-- Exponentiation groups to the right and takes no unary operand on its left; all other
operators group to the left. -/
def binary (p : Parts) : Doc :=
  let operator := p.text .operator ""
  let own := Strength.of p.node
  let leftLeast := if operator == "**" then Strength.postfixed else own
  let rightLeast := if operator == "**" then own else own + 1
  let side (field : Field) (least : Nat) : Doc :=
    p.part field fun c => c.operand (operandStrength operator c.node least)
  side .left leftLeast ++ ofText (" " ++ operator ++ " ") ++ side .right rightLeast

def assignment (p : Parts) : Doc :=
  p.operand .left Strength.call ++ ofText (" " ++ p.text .operator "=" ++ " ") ++
    p.operand .right Strength.assignment

def conditional (p : Parts) : Doc :=
  p.operand .test Strength.logicalOr ++ ofText " ? " ++
    p.operand .consequent Strength.assignment ++ ofText " : " ++
    p.operand .alternate Strength.assignment

def yielded (p : Parts) : Doc :=
  ofText (if p.node.flag .delegate then "yield*" else "yield") ++
    p.operandAfter " " .argument Strength.assignment

/-- The text of a node without parentheses around it.  A statement where an expression is
expected prints as itself. -/
def bare (p : Parts) : Doc :=
  match p.kind with
  | .identifier => ofText (p.node.name?.getD "")
  | .literal => ofText p.literal
  | .thisExpression => ofText "this"
  | .arrayExpression => p.array
  | .objectExpression => p.object
  | .property => p.property
  | .functionExpression => p.function true
  | .arrowFunctionExpression => p.arrow
  | .spreadElement | .restElement =>
    ofText "..." ++ p.operand .argument Strength.assignment
  | .assignmentPattern =>
    p.operand .left Strength.call ++ ofText " = " ++ p.operand .right Strength.assignment
  | .memberExpression => p.member
  | .callExpression => p.call
  | .newExpression => p.construct
  | .unaryExpression => p.unary
  | .updateExpression => p.update
  | .binaryExpression | .logicalExpression => p.binary
  | .assignmentExpression => p.assignment
  | .conditionalExpression => p.conditional
  | .sequenceExpression => p.operands .expressions
  | .awaitExpression => ofText "await " ++ p.operand .argument Strength.unary
  | .yieldExpression => p.yielded
  | .variableDeclarator => p.declarator
  | _ => p.ownStatement?.getD []

def operandDoc (p : Parts) (least : Nat) : Doc :=
  if Strength.of p.node < least then parenthesized p.bare else p.bare

/-- An expression where a statement is expected ends in a semicolon. -/
def statement (p : Parts) : Doc :=
  match p.ownStatement? with
  | some doc => doc
  | none =>
    if p.kind.isExpression || p.kind = .property then
      p.operandDoc Strength.sequence ++ ofText ";"
    else p.bare

def declared (p : Parts) : Doc :=
  if p.kind = .variableDeclarator then p.declarator else p.operandDoc Strength.assignment

def loopHead (p : Parts) : Doc :=
  if p.kind = .variableDeclaration then p.declaration else p.operandDoc Strength.sequence

def startsWithCall (p : Parts) : Bool :=
  match p.kind with
  | .callExpression => true
  | .memberExpression =>
    match p.child? .object with
    | some object => object.startsWithCall
    | none => false
  | _ => false

def toPrinted (p : Parts) : Printed where
  node := p.node
  bare := p.bare
  statement := p.statement
  block := p.block
  methodTail := p.methodTail
  declared := p.declared
  loopHead := p.loopHead
  handler := p.handler
  switchCase := p.switchCase
  startsWithCall := p.startsWithCall

end Parts

mutual

def Node.printed (style : Style) : Node → Printed
  | .mk kind span slots => Parts.toPrinted ⟨style, .mk kind span slots, printedSlots style slots⟩
termination_by structural n => n

def Slot.printed (style : Style) : Slot → PrintedSlot
  | .node n => .node (n.printed style)
  | .list ns => .list (printedNodes style ns)
  | .absent => .leaf
  | .scalar _ => .leaf
termination_by structural s => s

def printedSlots (style : Style) : List (Field × Slot) → List (Field × PrintedSlot)
  | [] => []
  | (field, slot) :: rest => (field, slot.printed style) :: printedSlots style rest
termination_by structural ss => ss

def printedNodes (style : Style) : List Node → List Printed
  | [] => []
  | n :: rest => n.printed style :: printedNodes style rest
termination_by structural ns => ns

end

/-- A program, a statement or an expression, laid out. -/
def Node.layout (style : Style) (n : Node) : Doc :=
  if n.kind = .program then
    Doc.joinWith Doc.newline ((printedNodes style (n.list .body)).map Printed.statement)
  else if n.kind.isStatement && n.kind != .raw then (n.printed style).statement
  else (n.printed style).operand Strength.sequence

/-- The printed text of a program, a statement or an expression. -/
def Node.print (n : Node) (style : Style := {}) : String := (n.layout style).render style

end Graft
