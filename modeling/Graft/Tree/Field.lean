import Graft.Tree.Kind

/-!
# Fields

A field names a slot of a node.  Which kinds hold statements, plain names or declared bindings
under which field is fixed here once for the whole library.
-/

namespace Graft

inductive Field where
  | alternate
  | argument
  | arguments
  | async
  | block
  | body
  | callee
  | cases
  | computed
  | consequent
  | declarations
  | delegate
  | discriminant
  | elements
  | expression
  | expressions
  | finalizer
  | generator
  | handler
  | id
  | init
  | key
  | kind
  | label
  | left
  | method
  | name
  | object
  | operator
  | optional
  | param
  | params
  | prefixed
  | properties
  | property
  | right
  | shorthand
  | test
  | text
  | update
  | value
deriving DecidableEq, Repr, Inhabited

namespace Field

/-- The written name of a field.  The text of a `raw` node is called `raw`. -/
def spelling : Field → String
  | alternate => "alternate"
  | argument => "argument"
  | arguments => "arguments"
  | async => "async"
  | block => "block"
  | body => "body"
  | callee => "callee"
  | cases => "cases"
  | computed => "computed"
  | consequent => "consequent"
  | declarations => "declarations"
  | delegate => "delegate"
  | discriminant => "discriminant"
  | elements => "elements"
  | expression => "expression"
  | expressions => "expressions"
  | finalizer => "finalizer"
  | generator => "generator"
  | handler => "handler"
  | id => "id"
  | init => "init"
  | key => "key"
  | kind => "kind"
  | label => "label"
  | left => "left"
  | method => "method"
  | name => "name"
  | object => "object"
  | operator => "operator"
  | optional => "optional"
  | param => "param"
  | params => "params"
  | prefixed => "prefix"
  | properties => "properties"
  | property => "property"
  | right => "right"
  | shorthand => "shorthand"
  | test => "test"
  | text => "raw"
  | update => "update"
  | value => "value"

def all : List Field :=
  [alternate, argument, arguments, async, block, body, callee, cases, computed, consequent,
    declarations, delegate, discriminant, elements, expression, expressions, finalizer,
    generator, handler, id, init, key, kind, label, left, method, name, object, operator,
    optional, param, params, prefixed, properties, property, right, shorthand, test, text,
    update, value]

def ofSpelling? (text : String) : Option Field :=
  all.find? fun field => field.spelling == text

end Field

namespace Kind

/-- The field holds a list of statements. -/
def hasStatementList : Kind → Field → Bool
  | program, .body | blockStatement, .body | switchCase, .consequent => true
  | _, _ => false

/-- The field holds exactly one statement. -/
def hasSingleStatement : Kind → Field → Bool
  | ifStatement, .consequent | ifStatement, .alternate | forStatement, .body
  | forInStatement, .body | forOfStatement, .body | whileStatement, .body
  | doWhileStatement, .body | labeledStatement, .body => true
  | _, _ => false

/-- The field holds statements, one or a list. -/
def hasStatementSlot (kind : Kind) (field : Field) : Bool :=
  kind.hasStatementList field || kind.hasSingleStatement field

/-- The field may hold only an identifier; a property of a member or a key of an object is
bound by this as long as it is not computed. -/
def isNameSlot : Kind → Field → Bool
  | functionDeclaration, .id | functionExpression, .id | labeledStatement, .label
  | breakStatement, .label | continueStatement, .label | memberExpression, .property
  | property, .key => true
  | _, _ => false

/-- The field declares bindings: declared names, parameters, the parameter of a `catch`. -/
def isBindingSlot : Kind → Field → Bool
  | variableDeclarator, .id | functionDeclaration, .params | functionExpression, .params
  | arrowFunctionExpression, .params | catchClause, .param => true
  | _, _ => false

end Kind
end Graft
