import Graft.Edit.Replacement
import Graft.Match.Bindings
import Graft.Rule.Basic

/-!
# Instantiation

A template becomes a replacement when its wildcards are replaced by what they are bound to.  A
rest wildcard, written `...x` or `x`, becomes the elements it is bound to, so it must stand in a
list.
-/

namespace Graft

/-- What a node of a template becomes. -/
inductive Expansion where
  | one (node : Node)
  | many (name : String) (nodes : List Node)

namespace Expansion

def nodes : Expansion → List Node
  | one n => [n]
  | many _ ns => ns

def single : Expansion → Except EditError Node
  | one n => .ok n
  | many name _ => .error (.restOutsideList name)

end Expansion

/-- What the wildcard `x` or `...x` is bound to. -/
def Node.expansion? (bs : Bindings) (n : Node) : Option Expansion :=
  let bound (n : Node) : Option (String × Binding) := do
    let name ← n.name?
    let b ← bs.get? name
    return (name, b)
  match bound n with
  | some (_, .node captured) => some (.one captured)
  | some (name, .rest captured) => some (.many name captured)
  | none =>
    if n.kind = .spreadElement ∨ n.kind = .restElement then
      match (n.child? .argument).bind bound with
      | some (name, .rest captured) => some (.many name captured)
      | _ => none
    else none

mutual

def Node.expand (bs : Bindings) : Node → Except EditError Expansion
  | .mk kind span slots =>
    let n : Node := .mk kind span slots
    match n.expansion? bs with
    | some expansion => .ok expansion
    | none => do return .one (.mk kind span (← expandSlots bs n slots))
termination_by structural n => n

def Slot.expand (bs : Bindings) (parent : Node) (field : Field) : Slot → Except EditError Slot
  | .node n =>
    if isDirectCallee parent.kind field n then .ok (.node n)
    else do
      let child ← (← n.expand bs).single
      checkSlot parent field child
      return .node child
  | .list ns => do
    let children ← expandNodes bs ns
    children.forM (checkSlot parent field)
    return .list children
  | .absent => .ok .absent
  | .scalar s => .ok (.scalar s)
termination_by structural s => s

def expandSlots (bs : Bindings) (parent : Node) :
    List (Field × Slot) → Except EditError (List (Field × Slot))
  | [] => .ok []
  | (field, slot) :: rest => do
    let slot ← slot.expand bs parent field
    let rest ← expandSlots bs parent rest
    return (field, slot) :: rest
termination_by structural ss => ss

def expandNodes (bs : Bindings) : List Node → Except EditError (List Node)
  | [] => .ok []
  | n :: rest => do
    let expansion ← n.expand bs
    let rest ← expandNodes bs rest
    return expansion.nodes ++ rest
termination_by structural ns => ns

end

def Fragment.instantiate (template : Fragment) (bs : Bindings) : Except EditError Replacement :=
  match template with
  | .expression root => do return .node (← (← root.expand bs).single)
  | .statements body => do return .statements (← expandNodes bs body)

end Graft
