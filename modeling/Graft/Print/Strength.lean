import Graft.Tree.Node

/-!
# Binding strength

How tightly the parts of an expression hold together when it is printed.  An operand weaker than
its place asks for is put in parentheses.
-/

namespace Graft.Strength

def sequence : Nat := 0
def assignment : Nat := 1
def conditional : Nat := 2
def logicalOr : Nat := 3
def unary : Nat := 14
def postfixed : Nat := 15
def call : Nat := 16
def construct : Nat := 17
def member : Nat := 19
def primary : Nat := 20

/-- An unknown operator holds as tightly as a name. -/
def binary : String → Nat
  | "??" | "||" => logicalOr
  | "&&" => 4
  | "|" => 5
  | "^" => 6
  | "&" => 7
  | "==" | "!=" | "===" | "!==" => 8
  | "<" | ">" | "<=" | ">=" | "in" | "instanceof" => 9
  | "<<" | ">>" | ">>>" => 10
  | "+" | "-" => 11
  | "*" | "/" | "%" => 12
  | "**" => 13
  | _ => primary

def of (n : Node) : Nat :=
  match n.kind with
  | .sequenceExpression => sequence
  | .assignmentExpression | .yieldExpression => assignment
  | .conditionalExpression | .arrowFunctionExpression => conditional
  | .binaryExpression | .logicalExpression => binary ((n.text? .operator).getD "")
  | .unaryExpression | .awaitExpression => unary
  | .updateExpression => if n.flag .prefixed then unary else postfixed
  | .callExpression => call
  | .newExpression => construct
  | .memberExpression => member
  | _ => primary

end Graft.Strength
