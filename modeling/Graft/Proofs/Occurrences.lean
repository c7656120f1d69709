import Graft.Proofs.Subtree

/-!
# Occurrences

The nodes of a tree in the order of the source, each with what stands above it.  A search that
carries a context down the tree decides about a node in passing; an occurrence has all that the
decision can depend on, so what the search does can be compared with what the rules say.
-/

namespace Graft

/-- A node of a tree with the nodes above it, the nearest first, and the step that leads down from
each of them. -/
structure Occurrence where
  node : Node
  above : List (Node × Step)

def Occurrence.ancestors (o : Occurrence) : List Node := o.above.map Prod.fst

mutual

/-- A node and all nodes below it, each before what is below it. -/
def Node.occurrences (above : List (Node × Step)) : Node → List Occurrence
  | .mk kind span slots =>
    let n : Node := .mk kind span slots
    ⟨n, above⟩ :: occurrencesInSlots n above slots
termination_by structural n => n

def Slot.occurrences (parent : Node) (above : List (Node × Step)) (field : Field) :
    Slot → List Occurrence
  | .node n => n.occurrences ((parent, ⟨field, none⟩) :: above)
  | .list ns => occurrencesInNodes parent above field 0 ns
  | .absent => []
  | .scalar _ => []
termination_by structural s => s

def occurrencesInSlots (parent : Node) (above : List (Node × Step)) :
    List (Field × Slot) → List Occurrence
  | [] => []
  | (field, slot) :: rest =>
    slot.occurrences parent above field ++ occurrencesInSlots parent above rest
termination_by structural ss => ss

/-- The occurrences in the items of a list, from the position `start` on. -/
def occurrencesInNodes (parent : Node) (above : List (Node × Step)) (field : Field)
    (start : Nat) : List Node → List Occurrence
  | [] => []
  | n :: rest =>
    n.occurrences ((parent, ⟨field, some start⟩) :: above) ++
      occurrencesInNodes parent above field (start + 1) rest
termination_by structural ns => ns

end

/-- The child that a step leads to, also where another slot has the same field. -/
def Node.HoldsAt (n : Node) (step : Step) (c : Node) : Prop :=
  ∃ slot, (step.field, slot) ∈ n.slots ∧ slot.child? step.index = some c

theorem Node.occurrences_eq (n : Node) (above : List (Node × Step)) :
    n.occurrences above = ⟨n, above⟩ :: occurrencesInSlots n above n.slots := by
  cases n
  rfl

section

variable {parent : Node} {above : List (Node × Step)} {field : Field} {o : Occurrence}

theorem mem_occurrencesInSlots_iff {slots : List (Field × Slot)} :
    o ∈ occurrencesInSlots parent above slots ↔
      ∃ entry ∈ slots, o ∈ entry.2.occurrences parent above entry.1 := by
  induction slots with
  | nil => simp [occurrencesInSlots]
  | cons entry rest ih => simp [occurrencesInSlots, ih]

theorem exists_item_of_mem_occurrencesInNodes
    {start : Nat} {ns : List Node}
    (ho : o ∈ occurrencesInNodes parent above field start ns) :
    ∃ (i : Nat) (c : Node), ns[i]? = some c ∧
      o ∈ c.occurrences ((parent, ⟨field, some (start + i)⟩) :: above) := by
  induction ns generalizing start with
  | nil => simp [occurrencesInNodes] at ho
  | cons n rest ih =>
      rw [occurrencesInNodes] at ho
      rcases List.mem_append.mp ho with hfirst | hrest
      · exact ⟨0, n, rfl, hfirst⟩
      · obtain ⟨i, c, hc, hmem⟩ := ih hrest
        refine ⟨i + 1, c, by simpa using hc, ?_⟩
        rwa [Nat.add_assoc, Nat.add_comm 1 i] at hmem

/-- Below a node there are only the occurrences of its children. -/
theorem exists_child_of_mem_occurrencesInSlots
    {n : Node}
    (ho : o ∈ occurrencesInSlots n above n.slots) :
    ∃ step c, n.HoldsAt step c ∧ o ∈ c.occurrences ((n, step) :: above) := by
  obtain ⟨⟨field, slot⟩, hentry, hslot⟩ := mem_occurrencesInSlots_iff.mp ho
  cases slot with
  | node c => exact ⟨⟨field, none⟩, c, ⟨_, hentry, rfl⟩, hslot⟩
  | list cs =>
      obtain ⟨i, c, hc, hmem⟩ := exists_item_of_mem_occurrencesInNodes hslot
      rw [Nat.zero_add] at hmem
      exact ⟨⟨field, some i⟩, c, ⟨_, hentry, hc⟩, hmem⟩
  | absent => simp [Slot.occurrences] at hslot
  | scalar s => simp [Slot.occurrences] at hslot

end

theorem Node.HoldsAt.mem_children {n c : Node} {step : Step} (hc : n.HoldsAt step c) :
    ∃ entry ∈ n.slots, c ∈ entry.2.children := by
  obtain ⟨slot, hslot, hchild⟩ := hc
  exact ⟨_, hslot, Slot.mem_children_of_child? hchild⟩

theorem Node.All.holdsAt
    {P : Node → Prop} {n c : Node} {step : Step}
    (hall : n.All P) (hc : n.HoldsAt step c) :
    c.All P := by
  obtain ⟨slot, hslot, hchild⟩ := hc
  exact hall.child hslot (Slot.mem_children_of_child? hchild)

/-- What holds at the root and passes from each occurrence to its children holds at every
occurrence. -/
theorem Node.occurrences_induction
    {P : Occurrence → Prop} {n : Node} {above : List (Node × Step)}
    (hroot : P ⟨n, above⟩)
    (hstep : ∀ o step c, P o → o.node.HoldsAt step c → P ⟨c, (o.node, step) :: o.above⟩) :
    ∀ o ∈ n.occurrences above, P o := by
  induction n using Node.childInduction generalizing above with
  | hparent n ih =>
      intro o ho
      rw [Node.occurrences_eq] at ho
      rcases List.mem_cons.mp ho with rfl | hbelow
      · exact hroot
      · obtain ⟨step, c, hc, hmem⟩ := exists_child_of_mem_occurrencesInSlots hbelow
        obtain ⟨entry, hentry, hchild⟩ := hc.mem_children
        exact ih entry hentry c hchild (hstep ⟨n, above⟩ step c hroot hc) o hmem

end Graft
