import Graft.Proofs.Subtree

/-!
# Document order

The order in which the parts of a tree are met when it is read from the front: a node before what
is below it, the slots of a node in their order, the items of a list by position.  A run of a list
is met before its first item.
-/

namespace Graft

/-- One step leads to an earlier slot than another, or to an earlier item of the same list. -/
def Node.StepBefore (n : Node) (a b : Step) : Prop :=
  n.fields.idxOf a.field < n.fields.idxOf b.field ∨
    a.field = b.field ∧ ∃ i j, a.index = some i ∧ b.index = some j ∧ i < j

/-- The node at the first path is met before the node at the second one. -/
inductive Node.Precedes : Node → Path → Path → Prop where
  | above {n : Node} {step : Step} {rest : Path} :
      Precedes n [] (step :: rest)
  | beside {n : Node} {a b : Step} {p q : Path} :
      n.StepBefore a b → Precedes n (a :: p) (b :: q)
  | inside {n c : Node} {step : Step} {p q : Path} :
      n.childAt? step = some c → Precedes c p q → Precedes n (step :: p) (step :: q)

namespace Region

/-- The path of the first node of a region. -/
def anchor : Region → Path
  | node path => path
  | run parent field start _ => parent ++ [⟨field, some start⟩]

def isRun : Region → Bool
  | node _ => false
  | run _ _ _ _ => true

/-- Regions are ordered by their first nodes, and a run stands before its first item. -/
def Before (root : Node) (a b : Region) : Prop :=
  root.Precedes a.anchor b.anchor ∨
    a.isRun = true ∧ b.isRun = false ∧ a.anchor = b.anchor

@[simp] theorem anchor_node (path : Path) : (node path).anchor = path := rfl

@[simp] theorem anchor_run (parent : Path) (field : Field) (start length : Nat) :
    (run parent field start length).anchor = parent ++ [⟨field, some start⟩] := rfl

@[simp] theorem isRun_node (path : Path) : (node path).isRun = false := rfl

@[simp] theorem isRun_run (parent : Path) (field : Field) (start length : Nat) :
    (run parent field start length).isRun = true := rfl

@[simp] theorem anchor_under (step : Step) (region : Region) :
    (region.under step).anchor = step :: region.anchor := by
  cases region <;> rfl

@[simp] theorem isRun_under (step : Step) (region : Region) :
    (region.under step).isRun = region.isRun := by
  cases region <;> rfl

theorem anchor_ne_nil_of_isRun {region : Region} (hrun : region.isRun = true) :
    region.anchor ≠ [] := by
  cases region with
  | node path => simp [isRun] at hrun
  | run parent field start length => simp [anchor]

end Region

theorem Node.StepBefore.irrefl {n : Node} {step : Step} : ¬ n.StepBefore step step := by
  rintro (hlt | ⟨-, i, j, hi, hj, hij⟩)
  · omega
  · rw [hi, Option.some.injEq] at hj
    omega

theorem Node.Precedes.irrefl {n : Node} {path : Path} : ¬ n.Precedes path path := by
  induction path generalizing n with
  | nil => intro h; cases h
  | cons step rest ih =>
      intro h
      cases h with
      | beside hstep => exact hstep.irrefl
      | inside _ hrest => exact ih hrest

theorem Region.Before.irrefl {root : Node} {region : Region} :
    ¬ Region.Before root region region := by
  rintro (h | ⟨hrun, hnode, -⟩)
  · exact h.irrefl
  · rw [hrun] at hnode
    contradiction

theorem Region.Before.under
    {n c : Node} {step : Step} {a b : Region}
    (hstep : n.childAt? step = some c) (hbefore : Region.Before c a b) :
    Region.Before n (a.under step) (b.under step) := by
  rcases hbefore with hprecedes | ⟨hrun, hnode, heq⟩
  · left
    simpa using Node.Precedes.inside hstep hprecedes
  · right
    simp [hrun, hnode, heq]

/-- Below a common path, an item that is met before the first item of a run has a smaller
position. -/
theorem Node.Precedes.index_lt
    {root : Node} {parent rest : Path} {field : Field} {i start : Nat}
    (hprecedes : root.Precedes (parent ++ ⟨field, some i⟩ :: rest)
      (parent ++ [⟨field, some start⟩])) :
    i < start := by
  induction parent generalizing root with
  | nil =>
      cases hprecedes with
      | beside hstep =>
          rcases hstep with hlt | ⟨-, i', j', hi, hj, hij⟩
          · exact absurd hlt (Nat.lt_irrefl _)
          · simp only [Option.some.injEq] at hi hj
            omega
      | inside _ hrest => cases hrest
  | cons step parent ih =>
      cases hprecedes with
      | beside hstep => exact absurd hstep Node.StepBefore.irrefl
      | inside _ hrest => exact ih hrest

end Graft
