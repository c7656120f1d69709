/-!
# Kinds of nodes

Every node of a tree carries one of the kinds below, named as in the usual JavaScript tree
vocabulary.  A construct without a kind of its own is a `raw` node and keeps its source text.
-/

namespace Graft

inductive Kind where
  | program
  | expressionStatement
  | blockStatement
  | emptyStatement
  | debuggerStatement
  | variableDeclaration
  | variableDeclarator
  | functionDeclaration
  | returnStatement
  | ifStatement
  | forStatement
  | forInStatement
  | forOfStatement
  | whileStatement
  | doWhileStatement
  | breakStatement
  | continueStatement
  | throwStatement
  | tryStatement
  | catchClause
  | switchStatement
  | switchCase
  | labeledStatement
  | identifier
  | literal
  | thisExpression
  | arrayExpression
  | objectExpression
  | property
  | functionExpression
  | arrowFunctionExpression
  | spreadElement
  | restElement
  | assignmentPattern
  | memberExpression
  | callExpression
  | newExpression
  | unaryExpression
  | updateExpression
  | binaryExpression
  | logicalExpression
  | assignmentExpression
  | conditionalExpression
  | sequenceExpression
  | awaitExpression
  | yieldExpression
  | elision
  | raw
deriving DecidableEq, Repr, Inhabited

namespace Kind

def name : Kind → String
  | program => "Program"
  | expressionStatement => "ExpressionStatement"
  | blockStatement => "BlockStatement"
  | emptyStatement => "EmptyStatement"
  | debuggerStatement => "DebuggerStatement"
  | variableDeclaration => "VariableDeclaration"
  | variableDeclarator => "VariableDeclarator"
  | functionDeclaration => "FunctionDeclaration"
  | returnStatement => "ReturnStatement"
  | ifStatement => "IfStatement"
  | forStatement => "ForStatement"
  | forInStatement => "ForInStatement"
  | forOfStatement => "ForOfStatement"
  | whileStatement => "WhileStatement"
  | doWhileStatement => "DoWhileStatement"
  | breakStatement => "BreakStatement"
  | continueStatement => "ContinueStatement"
  | throwStatement => "ThrowStatement"
  | tryStatement => "TryStatement"
  | catchClause => "CatchClause"
  | switchStatement => "SwitchStatement"
  | switchCase => "SwitchCase"
  | labeledStatement => "LabeledStatement"
  | identifier => "Identifier"
  | literal => "Literal"
  | thisExpression => "ThisExpression"
  | arrayExpression => "ArrayExpression"
  | objectExpression => "ObjectExpression"
  | property => "Property"
  | functionExpression => "FunctionExpression"
  | arrowFunctionExpression => "ArrowFunctionExpression"
  | spreadElement => "SpreadElement"
  | restElement => "RestElement"
  | assignmentPattern => "AssignmentPattern"
  | memberExpression => "MemberExpression"
  | callExpression => "CallExpression"
  | newExpression => "NewExpression"
  | unaryExpression => "UnaryExpression"
  | updateExpression => "UpdateExpression"
  | binaryExpression => "BinaryExpression"
  | logicalExpression => "LogicalExpression"
  | assignmentExpression => "AssignmentExpression"
  | conditionalExpression => "ConditionalExpression"
  | sequenceExpression => "SequenceExpression"
  | awaitExpression => "AwaitExpression"
  | yieldExpression => "YieldExpression"
  | elision => "Elision"
  | raw => "Raw"

def all : List Kind :=
  [program, expressionStatement, blockStatement, emptyStatement, debuggerStatement,
    variableDeclaration, variableDeclarator, functionDeclaration, returnStatement, ifStatement,
    forStatement, forInStatement, forOfStatement, whileStatement, doWhileStatement,
    breakStatement, continueStatement, throwStatement, tryStatement, catchClause,
    switchStatement, switchCase, labeledStatement, identifier, literal, thisExpression,
    arrayExpression, objectExpression, property, functionExpression, arrowFunctionExpression,
    spreadElement, restElement, assignmentPattern, memberExpression, callExpression,
    newExpression, unaryExpression, updateExpression, binaryExpression, logicalExpression,
    assignmentExpression, conditionalExpression, sequenceExpression, awaitExpression,
    yieldExpression, elision, raw]

def ofName? (text : String) : Option Kind :=
  all.find? fun kind => kind.name == text

/-- Kinds that stand where a statement is expected.  A `raw` node may stand for either a
statement or an expression. -/
def isStatement : Kind → Bool
  | expressionStatement | blockStatement | emptyStatement | debuggerStatement
  | variableDeclaration | functionDeclaration | returnStatement | ifStatement | forStatement
  | forInStatement | forOfStatement | whileStatement | doWhileStatement | breakStatement
  | continueStatement | throwStatement | tryStatement | switchStatement | labeledStatement
  | raw => true
  | _ => false

def isExpression : Kind → Bool
  | identifier | literal | thisExpression | arrayExpression | objectExpression
  | functionExpression | arrowFunctionExpression | memberExpression | callExpression
  | newExpression | unaryExpression | updateExpression | binaryExpression | logicalExpression
  | assignmentExpression | conditionalExpression | sequenceExpression | awaitExpression
  | yieldExpression | raw => true
  | _ => false

/-- Kinds that open a new function body. -/
def isFunction : Kind → Bool
  | functionDeclaration | functionExpression | arrowFunctionExpression => true
  | _ => false

def isLoop : Kind → Bool
  | forStatement | forInStatement | forOfStatement | whileStatement | doWhileStatement => true
  | _ => false

end Kind
end Graft
