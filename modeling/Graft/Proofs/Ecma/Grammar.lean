import Graft.Proofs.Reprint.Plain

/-!
# The expression grammar of ECMAScript

The productions of the standard for expressions over names, constants, numbers, members, calls and
operators, as a relation between tokens and trees.  It is stricter than the parser of programs: `??`
stands beside neither `||` nor `&&` without parentheses, no unary operator stands in front of the
base of a power, and only names and members are assigned to.
-/

namespace Graft.Ecma

open Grammar

/-! ## Tokens -/

inductive Token where
  | word (text : String)
  | number (raw : String)
  | mark (text : String)
deriving DecidableEq, Repr

/-- An operator is a word or a punctuator. -/
def Token.ofOperator (operator : String) : Token :=
  if isNameText operator.toList then .word operator else .mark operator

/-- The longest token at the front of a text that neither a blank nor a comment starts, and what
follows it.  No name stands right behind a number. -/
def tokenAt (text : List Char) : Option (Token × List Char) :=
  if isFresh text then
    match wordAt text with
    | some (word, rest) => if isNameText word.toList then some (.word word, rest) else none
    | none =>
      match numberLength? text with
      | some n =>
        if endsName (text.drop n) then some (.number (String.ofList (text.take n)), text.drop n)
        else none
      | none => (markAt text).map fun found => (.mark found.1, found.2)
  else none

/-- The tokens of a text on one line. -/
inductive Lexes : List Char → List Token → Prop
  | nil : Lexes [] []
  | space {text : List Char} {tokens : List Token} (htext : Lexes text tokens) :
      Lexes (' ' :: text) tokens
  | token {text rest : List Char} {token : Token} {tokens : List Token}
      (htoken : tokenAt text = some (token, rest)) (hrest : Lexes rest tokens) :
      Lexes text (token :: tokens)

theorem tokenAt_space (text : List Char) : tokenAt (' ' :: text) = none := rfl

/-- A text has its tokens in one way only. -/
theorem Lexes.unique
    {text : List Char} {tokens tokens' : List Token}
    (htokens : Lexes text tokens) (htokens' : Lexes text tokens') :
    tokens = tokens' := by
  induction htokens generalizing tokens' with
  | nil =>
      cases htokens' with
      | nil => rfl
      | token htoken => cases htoken
  | @space text tokens htext ih =>
      cases htokens' with
      | space htext' => exact ih htext'
      | token htoken => cases (tokenAt_space text).symm.trans htoken
  | token htoken hrest ih =>
      cases htokens' with
      | nil => cases htoken
      | @space text => cases (tokenAt_space text).symm.trans htoken
      | token htoken' hrest' =>
          cases htoken.symm.trans htoken'
          rw [ih hrest']

/-! ## Trees -/

def memberOf (object : Node) (name : String) : Node :=
  .mk .memberExpression {} [(.object, .node object), (.property, .node (.identifier name)),
    (.computed, .flag false), (.optional, .flag false)]

def elementOf (object index : Node) : Node :=
  .mk .memberExpression {} [(.object, .node object), (.property, .node index),
    (.computed, .flag true), (.optional, .flag false)]

def callOf (callee : Node) (args : List Node) : Node :=
  .mk .callExpression {}
    [(.callee, .node callee), (.arguments, .list args), (.optional, .flag false)]

def newOf (callee : Node) (args : List Node) : Node :=
  .mk .newExpression {} [(.callee, .node callee), (.arguments, .list args)]

def unaryOf (operator : String) (argument : Node) : Node :=
  .mk .unaryExpression {} [(.operator, .text operator), (.argument, .node argument)]

def updateOf (operator : String) (prefixed : Bool) (argument : Node) : Node :=
  .mk .updateExpression {}
    [(.operator, .text operator), (.argument, .node argument), (.prefixed, .flag prefixed)]

def binaryOf (operator : String) (left right : Node) : Node :=
  .mk (binaryKind operator) {}
    [(.operator, .text operator), (.left, .node left), (.right, .node right)]

def assignmentOf (operator : String) (left right : Node) : Node :=
  .mk .assignmentExpression {}
    [(.operator, .text operator), (.left, .node left), (.right, .node right)]

def conditionalOf (test consequent alternate : Node) : Node :=
  .mk .conditionalExpression {}
    [(.test, .node test), (.consequent, .node consequent), (.alternate, .node alternate)]

def sequenceOf (parts : List Node) : Node :=
  .mk .sequenceExpression {} [(.expressions, .list parts)]

def literalOf (value : Scalar) : Node := .mk .literal {} [(.value, .scalar value)]

/-! ## Productions -/

/-- The nonterminals of expressions. -/
inductive Goal where
  | primary
  | member
  | new
  | call
  | leftHandSide
  | update
  | unary
  | exponent
  | multiplicative
  | additive
  | shift
  | relational
  | equality
  | bitAnd
  | bitXor
  | bitOr
  | logicalAnd
  | logicalOr
  | coalesce
  | shortCircuit
  | conditional
  | assignment
  | expression
deriving DecidableEq, Repr

/-- What a nonterminal takes as it is. -/
def Goal.units : Goal → List Goal
  | .primary => []
  | .member => [.primary]
  | .new => [.member]
  | .call => []
  | .leftHandSide => [.new, .call]
  | .update => [.leftHandSide]
  | .unary => [.update]
  | .exponent => [.unary]
  | .multiplicative => [.exponent]
  | .additive => [.multiplicative]
  | .shift => [.additive]
  | .relational => [.shift]
  | .equality => [.relational]
  | .bitAnd => [.equality]
  | .bitXor => [.bitAnd]
  | .bitOr => [.bitXor]
  | .logicalAnd => [.bitOr]
  | .logicalOr => [.logicalAnd]
  | .coalesce => []
  | .shortCircuit => [.logicalOr, .coalesce]
  | .conditional => [.shortCircuit]
  | .assignment => [.conditional]
  | .expression => [.assignment]

/-- The operators that group to the left: what they make, from itself on their left, and the
nonterminal on their right. -/
def leftOperators : List (Goal × List String × Goal) :=
  [(.multiplicative, ["*", "/", "%"], .exponent),
    (.additive, ["+", "-"], .multiplicative),
    (.shift, ["<<", ">>", ">>>"], .additive),
    (.relational, ["<", ">", "<=", ">=", "instanceof", "in"], .shift),
    (.equality, ["==", "!=", "===", "!=="], .relational),
    (.bitAnd, ["&"], .equality),
    (.bitXor, ["^"], .bitAnd),
    (.bitOr, ["|"], .bitXor),
    (.logicalAnd, ["&&"], .bitOr),
    (.logicalOr, ["||"], .logicalAnd)]

/-- Words that are not identifiers. -/
def reserved : List String :=
  ["await", "break", "case", "catch", "class", "const", "continue", "debugger", "default", "delete",
    "do", "else", "enum", "export", "extends", "false", "finally", "for", "function", "if",
    "import", "in", "instanceof", "new", "null", "return", "super", "switch", "this", "throw",
    "true", "try", "typeof", "var", "void", "while", "with", "yield"]

/-- A list with commas between its parts. -/
def commas : List (List Token × Node) → List Token
  | [] => []
  | part :: parts => part.1 ++ parts.flatMap fun part => .mark "," :: part.1

/-- A list of arguments. -/
def arguments (parts : List (List Token × Node)) : List Token :=
  .mark "(" :: (commas parts ++ [.mark ")"])

/-- The tokens derive from the nonterminal, with the tree that they stand for. -/
inductive Derives : Goal → List Token → Node → Prop
  | unit {goal inner : Goal} {tokens : List Token} {n : Node} (hunit : inner ∈ goal.units)
      (hinner : Derives inner tokens n) : Derives goal tokens n
  | identifier {name : String} (hname : name ∉ reserved) :
      Derives .primary [.word name] (.identifier name)
  | this : Derives .primary [.word "this"] (.mk .thisExpression {} [])
  | constant {word : String} {value : Scalar} (hword : (word, value) ∈ constants) :
      Derives .primary [.word word] (literalOf value)
  | number {raw : String} :
      Derives .primary [.number raw] (literalOf (.num (Numeral.value? raw) raw))
  | group {tokens : List Token} {n : Node} (hinner : Derives .expression tokens n) :
      Derives .primary (.mark "(" :: (tokens ++ [.mark ")"])) n
  | member {goal : Goal} {tokens : List Token} {object : Node} {name : String}
      (hgoal : goal ∈ [Goal.member, Goal.call]) (hobject : Derives goal tokens object) :
      Derives goal (tokens ++ [.mark ".", .word name]) (memberOf object name)
  | element {goal : Goal} {tokens inner : List Token} {object index : Node}
      (hgoal : goal ∈ [Goal.member, Goal.call]) (hobject : Derives goal tokens object)
      (hindex : Derives .expression inner index) :
      Derives goal (tokens ++ .mark "[" :: (inner ++ [.mark "]"])) (elementOf object index)
  | call {goal : Goal} {tokens : List Token} {callee : Node} {parts : List (List Token × Node)}
      (hgoal : goal ∈ [Goal.member, Goal.call]) (hcallee : Derives goal tokens callee)
      (hparts : ∀ part ∈ parts, Derives .assignment part.1 part.2) :
      Derives .call (tokens ++ arguments parts) (callOf callee (parts.map Prod.snd))
  | construct {tokens : List Token} {callee : Node} {parts : List (List Token × Node)}
      (hcallee : Derives .member tokens callee)
      (hparts : ∀ part ∈ parts, Derives .assignment part.1 part.2) :
      Derives .member (.word "new" :: (tokens ++ arguments parts))
        (newOf callee (parts.map Prod.snd))
  | constructPlain {tokens : List Token} {callee : Node} (hcallee : Derives .new tokens callee) :
      Derives .new (.word "new" :: tokens) (newOf callee [])
  | updateBefore {tokens : List Token} {operator : String} {target : Node}
      (hoperator : operator ∈ ["++", "--"]) (hargument : Derives .unary tokens target)
      (htarget : target.isTarget = true) :
      Derives .update (.mark operator :: tokens) (updateOf operator true target)
  | updateBehind {tokens : List Token} {operator : String} {target : Node}
      (hoperator : operator ∈ ["++", "--"]) (hargument : Derives .leftHandSide tokens target)
      (htarget : target.isTarget = true) :
      Derives .update (tokens ++ [.mark operator]) (updateOf operator false target)
  | unary {tokens : List Token} {operator : String} {argument : Node}
      (hoperator : operator ∈ unaryOperators) (hargument : Derives .unary tokens argument) :
      Derives .unary (.ofOperator operator :: tokens) (unaryOf operator argument)
  | power {tokens tokens' : List Token} {base power : Node} (hbase : Derives .update tokens base)
      (hpower : Derives .exponent tokens' power) :
      Derives .exponent (tokens ++ .mark "**" :: tokens') (binaryOf "**" base power)
  | binary {goal inner : Goal} {operators : List String} {operator : String}
      {tokens tokens' : List Token} {left right : Node}
      (hgoal : (goal, operators, inner) ∈ leftOperators) (hoperator : operator ∈ operators)
      (hleft : Derives goal tokens left) (hright : Derives inner tokens' right) :
      Derives goal (tokens ++ .ofOperator operator :: tokens') (binaryOf operator left right)
  | coalesce {goal : Goal} {tokens tokens' : List Token} {left right : Node}
      (hgoal : goal ∈ [Goal.coalesce, Goal.bitOr]) (hleft : Derives goal tokens left)
      (hright : Derives .bitOr tokens' right) :
      Derives .coalesce (tokens ++ .mark "??" :: tokens') (binaryOf "??" left right)
  | conditional {tokens tokens' tokens'' : List Token} {test consequent alternate : Node}
      (htest : Derives .shortCircuit tokens test)
      (hconsequent : Derives .assignment tokens' consequent)
      (halternate : Derives .assignment tokens'' alternate) :
      Derives .conditional (tokens ++ .mark "?" :: (tokens' ++ .mark ":" :: tokens''))
        (conditionalOf test consequent alternate)
  | assignment {tokens tokens' : List Token} {operator : String} {target value : Node}
      (hoperator : operator ∈ assignmentMarks) (hleft : Derives .leftHandSide tokens target)
      (htarget : target.isTarget = true) (hright : Derives .assignment tokens' value) :
      Derives .assignment (tokens ++ .mark operator :: tokens')
        (assignmentOf operator target value)
  | sequence {parts : List (List Token × Node)} (hlength : 2 ≤ parts.length)
      (hparts : ∀ part ∈ parts, Derives .assignment part.1 part.2) :
      Derives .expression (commas parts) (sequenceOf (parts.map Prod.snd))

/-- An expression that starts like this is not a statement. -/
def startsOtherwise : List Token → Bool
  | .mark "\x7b" :: _ | .word "function" :: _ | .word "class" :: _
  | .word "async" :: .word "function" :: _ | .word "let" :: .mark "[" :: _ => true
  | _ => false

/-- The text is an expression statement, with the tree that it stands for. -/
def ReadsAs (source : String) (n : Node) : Prop :=
  ∃ tokens e, Lexes source.toList (tokens ++ [.mark ";"]) ∧ startsOtherwise tokens = false ∧
    Derives .expression tokens e ∧ n = .mk .expressionStatement {} [(.expression, .node e)]

end Graft.Ecma
