import Graft.Tree.Node

/-!
# Replacements

What a match is replaced by, and how it is made to fit the place of the match.
-/

namespace Graft

inductive EditError where
  /-- A rest wildcard stands where one node is required. -/
  | restOutsideList (name : String)
  | notAnIdentifier (kind : Kind) (field : Field) (found : Kind)
  | statementCount (found : Nat)
  | expressionCount (found : Nat)
  | noSuchPlace
deriving DecidableEq, Repr, Inhabited

def EditError.message : EditError → String
  | restOutsideList name =>
    s!"rest wildcard '{name}' expands to a sequence where a single node is required"
  | notAnIdentifier kind field found =>
    "'" ++ field.spelling ++ "' of " ++ kind.name ++ " must be an identifier, found " ++ found.name
  | statementCount found =>
    s!"replacement yields {found} statements where one statement is required"
  | expressionCount found =>
    s!"replacement yields {found} statements where one expression is required"
  | noSuchPlace => "match location does not exist in the tree"

/-- An expression becomes a statement of its own. -/
def Node.asStatement (n : Node) : Node :=
  if n.kind.isStatement && n.kind != .raw then n
  else .mk .expressionStatement n.span [(.expression, .node n)]

inductive Replacement where
  | node (node : Node)
  | statements (body : List Node)

namespace Replacement

/-- Where a statement is expected an expression becomes one; where an expression is expected a
lone expression statement gives its expression. -/
def toNode (r : Replacement) (statementExpected : Bool) : Except EditError Node :=
  match r with
  | node n => .ok (if statementExpected then n.asStatement else n)
  | statements body =>
    if statementExpected then
      match body with
      | [only] => .ok only
      | _ => .error (.statementCount body.length)
    else
      match body with
      | [only] =>
        if only.kind = .expressionStatement then
          match only.child? .expression with
          | some n => .ok n
          | none => .error (.expressionCount 1)
        else .error (.expressionCount 1)
      | _ => .error (.expressionCount body.length)

def toStatements : Replacement → List Node
  | node n => [n.asStatement]
  | statements body => body

end Replacement

/-- A slot for names takes identifiers only.  The key of an object may also be a literal, and
computed keys and properties may be anything; a slot for bindings also takes defaults, rest
elements and destructuring patterns. -/
def fitsSlot (parent : Kind) (computed : Bool) (field : Field) (child : Kind) : Bool :=
  if parent.isBindingSlot field then
    child == .identifier || child == .assignmentPattern || child == .restElement || child == .raw
  else if parent.isNameSlot field then
    child == .identifier || computed || (parent == .property && child == .literal)
  else true

def checkSlot (parent : Node) (field : Field) (child : Node) : Except EditError Unit :=
  if fitsSlot parent.kind (parent.flag .computed) field child.kind then .ok ()
  else .error (.notAnIdentifier parent.kind field child.kind)

end Graft
