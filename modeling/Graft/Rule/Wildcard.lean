import Graft.Rule.Error

/-!
# Wildcards

An identifier of one lowercase letter is a wildcard.  Written `...x` at the end of an argument or
parameter list it is a rest wildcard and stands for the remaining elements; anywhere else it
stands for one node.  The identifier that a call or `new` calls directly is never a wildcard.
-/

namespace Graft

inductive WildcardRole where
  | value
  | rest
deriving DecidableEq, Repr, Inhabited

def isWildcardName (name : String) : Bool :=
  match name.toList with
  | [c] => c.isLower
  | _ => false

/-- The name of an identifier that has the form of a wildcard. -/
def Node.wildcardName? (n : Node) : Option String := n.name?.filter isWildcardName

/-- The identifier that names the called function, which stands for itself. -/
def isDirectCallee (parent : Kind) (field : Field) (child : Node) : Bool :=
  (parent == .callExpression || parent == .newExpression) && field == .callee &&
    child.kind == .identifier

/-- The lists whose last element may be a rest wildcard. -/
def Kind.acceptsRest : Kind → Field → Bool
  | .callExpression, .arguments | .newExpression, .arguments => true
  | .functionDeclaration, .params | .functionExpression, .params
  | .arrowFunctionExpression, .params => true
  | _, _ => false

/-- The name in `...x`, if it has the form of a wildcard. -/
def Node.restName? (n : Node) : Option String :=
  if n.kind = .spreadElement ∨ n.kind = .restElement then
    (n.child? .argument).bind Node.wildcardName?
  else none

/-- An occurrence of a wildcard. -/
inductive WildcardUse where
  | value (name : String)
  | rest (name : String)
  /-- A rest wildcard with elements behind it. -/
  | misplacedRest (name : String)
deriving DecidableEq, Repr, Inhabited

mutual

/-- The wildcards of a tree in the order of their occurrence. -/
def Node.wildcardUses : Node → List WildcardUse
  | .mk kind span slots =>
    match (Node.mk kind span slots).wildcardName? with
    | some name => [.value name]
    | none => wildcardUsesInSlots kind slots
termination_by structural n => n

def Slot.wildcardUses (parent : Kind) (field : Field) : Slot → List WildcardUse
  | .node n => if isDirectCallee parent field n then [] else n.wildcardUses
  | .list ns => wildcardUsesInNodes (parent.acceptsRest field) ns
  | .absent => []
  | .scalar _ => []
termination_by structural s => s

def wildcardUsesInSlots (parent : Kind) : List (Field × Slot) → List WildcardUse
  | [] => []
  | (field, slot) :: rest => slot.wildcardUses parent field ++ wildcardUsesInSlots parent rest
termination_by structural ss => ss

def wildcardUsesInNodes (acceptsRest : Bool) : List Node → List WildcardUse
  | [] => []
  | n :: rest =>
    let uses :=
      match if acceptsRest then n.restName? else none with
      | some name => [if rest.isEmpty then .rest name else .misplacedRest name]
      | none => n.wildcardUses
    uses ++ wildcardUsesInNodes acceptsRest rest
termination_by structural ns => ns

end

mutual

/-- The names of all wildcards below a node, repeated ones included. -/
def Node.wildcardNames : Node → List String
  | .mk kind span slots =>
    match (Node.mk kind span slots).wildcardName? with
    | some name => [name]
    | none => wildcardNamesInSlots kind slots
termination_by structural n => n

def Slot.wildcardNames (parent : Kind) (field : Field) : Slot → List String
  | .node n => if isDirectCallee parent field n then [] else n.wildcardNames
  | .list ns => wildcardNamesInNodes ns
  | .absent => []
  | .scalar _ => []
termination_by structural s => s

def wildcardNamesInSlots (parent : Kind) : List (Field × Slot) → List String
  | [] => []
  | (field, slot) :: rest => slot.wildcardNames parent field ++ wildcardNamesInSlots parent rest
termination_by structural ss => ss

def wildcardNamesInNodes : List Node → List String
  | [] => []
  | n :: rest => n.wildcardNames ++ wildcardNamesInNodes rest
termination_by structural ns => ns

end

/-- The names that nodes refer to, each at its first place. -/
def referencedNames (nodes : List Node) : List String := (wildcardNamesInNodes nodes).eraseDups

/-- The wildcards of a pattern with their roles, in the order of their first occurrence. -/
structure Wildcards where
  roles : List (String × WildcardRole) := []
deriving DecidableEq, Repr, Inhabited

namespace Wildcards

def get? (w : Wildcards) (name : String) : Option WildcardRole := w.roles.lookup name

def contains (w : Wildcards) (name : String) : Bool := (w.get? name).isSome

/-- A name keeps the role it was first used in. -/
def declare (w : Wildcards) (name : String) (role : WildcardRole) : Except RuleError Wildcards :=
  match w.get? name with
  | some r => if r = role then .ok w else .error (.conflictingWildcard name)
  | none => .ok ⟨w.roles ++ [(name, role)]⟩

def addUse (w : Wildcards) : WildcardUse → Except RuleError Wildcards
  | .value name => w.declare name .value
  | .rest name => w.declare name .rest
  | .misplacedRest name => .error (.restNotLast name)

/-- The roles of all wildcards in a sequence of nodes. -/
def collect (nodes : List Node) : Except RuleError Wildcards :=
  (wildcardUsesInNodes false nodes).foldlM addUse {}

/-- The name of the value wildcard that a node stands for. -/
def valueName? (w : Wildcards) (n : Node) : Option String :=
  n.name?.filter fun name => w.get? name = some .value

/-- The name of the rest wildcard that a node stands for. -/
def restName? (w : Wildcards) (n : Node) : Option String :=
  n.restName?.filter fun name => w.get? name = some .rest

end Wildcards
end Graft
