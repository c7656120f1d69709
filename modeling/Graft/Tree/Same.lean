import Graft.Tree.Node

/-!
# Same structure

Two trees have the same structure when they agree up to source places and the order of slots:
equal kinds, equally many slots, and for each slot of the one a slot of the same field and the
same structure in the other.
-/

namespace Graft

mutual

def Node.sameStructure : Node → Node → Bool
  | .mk kind _ slots, other =>
    kind == other.kind && slots.length == other.slots.length &&
      sameSlots slots other.slots
termination_by structural a => a

def Slot.sameStructure : Slot → Slot → Bool
  | .node a, .node b => a.sameStructure b
  | .list as, .list bs => sameSequence as bs
  | .absent, .absent => true
  | .scalar a, .scalar b => a.same b
  | _, _ => false
termination_by structural a => a

/-- Each slot on the left has a partner on the right. -/
def sameSlots : List (Field × Slot) → List (Field × Slot) → Bool
  | [], _ => true
  | (field, slot) :: rest, others =>
    (match others.lookup field with
      | some other => slot.sameStructure other
      | none => false) && sameSlots rest others
termination_by structural a => a

def sameSequence : List Node → List Node → Bool
  | [], [] => true
  | a :: as, b :: bs => a.sameStructure b && sameSequence as bs
  | _, _ => false
termination_by structural a => a

end

end Graft
