import Graft.Proofs.Reprint.Layout
import Graft.Proofs.Reprint.Operation

/-!
# Plain trees

The trees whose printed text is shown to read back.
-/

namespace Graft

open Grammar

/-- The operators in front of an operand. -/
def unaryOperators : List String := unaryWords ++ unarySigns.map Prod.snd

/-- The kind of an operation with two operands. -/
def binaryKind (operator : String) : Kind :=
  if isLogical operator then .logicalExpression else .binaryExpression

/-- What can be assigned to. -/
def Node.isTarget (n : Node) : Bool := n.kind = .identifier || n.kind = .memberExpression

/-- The places that a plain tree can stand in. -/
inductive Role where
  | operand
  /-- In a list of arguments or elements. -/
  | argument
deriving DecidableEq, Repr

/-- Trees of names of variables, constants, integers, strings, arrays, members, calls, operators,
assignments, conditionals and sequences, nested in any way.  No string has a NUL in front of a
digit. -/
inductive Node.Plain : Role → Node → Prop
  | variableName {span : Span} {name : String} (hname : isVariable name = true) :
      Plain .operand (.identifier name span)
  | integer {span : Span} {raw : String} (hne : raw.toList ≠ [])
      (hraw : raw.toList.all Char.isDigit = true) :
      Plain .operand (.mk .literal span [(.value, .scalar (.num (Numeral.value? raw) raw))])
  | string {span : Span} {value : String}
      (hvalue : Text.Quoted.nulBeforeDigit value.toList = false) :
      Plain .operand (.mk .literal span [(.value, .scalar (.str value))])
  | constant {span : Span} {word : String} {value : Scalar} (hword : (word, value) ∈ constants) :
      Plain .operand (.mk .literal span [(.value, .scalar value)])
  | this {span : Span} : Plain .operand (.mk .thisExpression span [])
  | array {span : Span} {ns : List Node} (hns : ∀ n ∈ ns, Plain .argument n) :
      Plain .operand (.mk .arrayExpression span [(.elements, .list ns)])
  | member {span span' : Span} {object : Node} {name : String} (hobject : Plain .operand object)
      (hname : isNameText name.toList = true) :
      Plain .operand (.mk .memberExpression span [(.object, .node object),
        (.property, .node (.identifier name span')), (.computed, .flag false),
          (.optional, .flag false)])
  | element {span : Span} {object index : Node} (hobject : Plain .operand object)
      (hindex : Plain .operand index) :
      Plain .operand (.mk .memberExpression span [(.object, .node object),
        (.property, .node index), (.computed, .flag true), (.optional, .flag false)])
  | call {span : Span} {callee : Node} {args : List Node} (hcallee : Plain .operand callee)
      (hargs : ∀ n ∈ args, Plain .argument n) :
      Plain .operand (.mk .callExpression span [(.callee, .node callee), (.arguments, .list args),
        (.optional, .flag false)])
  | new {span : Span} {callee : Node} {args : List Node} (hcallee : Plain .operand callee)
      (hargs : ∀ n ∈ args, Plain .argument n) :
      Plain .operand (.mk .newExpression span [(.callee, .node callee), (.arguments, .list args)])
  | unary {span : Span} {operator : String} {argument : Node}
      (hoperator : operator ∈ unaryOperators) (hargument : Plain .operand argument) :
      Plain .operand (.mk .unaryExpression span [(.operator, .text operator),
        (.argument, .node argument)])
  | update {span : Span} {operator : String} {argument : Node} {prefixed : Bool}
      (hoperator : operator ∈ ["++", "--"]) (hargument : Plain .operand argument) :
      Plain .operand (.mk .updateExpression span [(.operator, .text operator),
        (.argument, .node argument), (.prefixed, .flag prefixed)])
  | binary {kind : Kind} {span : Span} {operator : String} {left right : Node}
      (hoperator : operator ∈ binaryOperators) (hkind : kind = binaryKind operator)
      (hleft : Plain .operand left) (hright : Plain .operand right) :
      Plain .operand (.mk kind span [(.operator, .text operator), (.left, .node left),
        (.right, .node right)])
  | assignment {span : Span} {operator : String} {left right : Node}
      (hoperator : operator ∈ assignmentMarks) (hleft : Plain .operand left)
      (htarget : left.isTarget = true) (hright : Plain .operand right) :
      Plain .operand (.mk .assignmentExpression span [(.operator, .text operator),
        (.left, .node left), (.right, .node right)])
  | conditional {span : Span} {test consequent alternate : Node} (htest : Plain .operand test)
      (hconsequent : Plain .operand consequent) (halternate : Plain .operand alternate) :
      Plain .operand (.mk .conditionalExpression span [(.test, .node test),
        (.consequent, .node consequent), (.alternate, .node alternate)])
  | sequence {span : Span} {ns : List Node} (hlength : 2 ≤ ns.length)
      (hns : ∀ n ∈ ns, Plain .operand n) :
      Plain .operand (.mk .sequenceExpression span [(.expressions, .list ns)])
  | value {n : Node} (hn : Plain .operand n) : Plain .argument n
  | spread {span : Span} {n : Node} (hn : Plain .operand n) :
      Plain .argument (.mk .spreadElement span [(.argument, .node n)])

end Graft
