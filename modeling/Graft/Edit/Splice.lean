import Graft.Edit.Replacement
import Graft.Match.Region

/-!
# Splicing

Putting a replacement in the place of a region.  The nodes on the way to the region are built
anew around it, and all others are left as they are.
-/

namespace Graft

namespace Slot

/-- Puts a node in the place of a child. -/
def setChild? : Slot → Option Nat → Node → Option Slot
  | node _, none, child => some (.node child)
  | list ns, some i, child => if i < ns.length then some (.list (ns.set i child)) else none
  | _, _, _ => none

/-- Puts nodes in the place of a run, whose end `start + length` stays below 2 ^ 64. -/
def setRun? (slot : Slot) (start length : Nat) (body : List Node) : Option Slot :=
  match slot with
  | list ns =>
    if start + length ≤ ns.length then
      some (.list (ns.take start ++ body ++ ns.drop (start + length)))
    else none
  | _ => none

end Slot

/-- Changes a slot of the node at the end of a path. -/
def Node.editSlot? (field : Field) (edit : Slot → Option Slot) : Path → Node → Option Node
  | [], n => do
    let slot ← n.slot? field
    return n.set field (← edit slot)
  | step :: rest, n => do
    let slot ← n.slot? step.field
    let child ← slot.child? step.index
    let child ← editSlot? field edit rest child
    return n.set step.field (← slot.setChild? step.index child)

/-- The new tree after a replacement.  A replacement of the root is fitted as an expression. -/
def Node.splice (root : Node) (region : Region) (r : Replacement) : Except EditError Node :=
  match region with
  | .node path =>
    match path.getLast? with
    | none => r.toNode false
    | some last => do
      let some parent := Path.resolve? path.dropLast root | .error .noSuchPlace
      let child ← r.toNode (parent.kind.hasStatementSlot last.field)
      checkSlot parent last.field child
      let edit (slot : Slot) := slot.setChild? last.index child
      match root.editSlot? last.field edit path.dropLast with
      | some tree => .ok tree
      | none => .error .noSuchPlace
  | .run parent field start length =>
    let edit (slot : Slot) := slot.setRun? start length r.toStatements
    match root.editSlot? field edit parent with
    | some tree => .ok tree
    | none => .error .noSuchPlace

end Graft
