import Graft.Match.Find
import Mathlib.Data.List.Nodup

/-!
# Subtrees

A property of every node of a tree, the children of a node, and what paths say about them.  The
results about matching and editing are stated for trees in which no node has two slots of the same
field, because a path finds only the first of them.
-/

namespace Graft

mutual

/-- The property holds of every node of the tree. -/
def Node.All (P : Node → Prop) : Node → Prop
  | .mk kind span slots => P (.mk kind span slots) ∧ AllInSlots P slots
termination_by structural n => n

def Slot.All (P : Node → Prop) : Slot → Prop
  | .node n => n.All P
  | .list ns => AllInNodes P ns
  | .absent => True
  | .scalar _ => True
termination_by structural s => s

def AllInSlots (P : Node → Prop) : List (Field × Slot) → Prop
  | [] => True
  | (_, slot) :: rest => slot.All P ∧ AllInSlots P rest
termination_by structural ss => ss

def AllInNodes (P : Node → Prop) : List Node → Prop
  | [] => True
  | n :: rest => n.All P ∧ AllInNodes P rest
termination_by structural ns => ns

end

mutual

def Node.decideAll {P : Node → Prop} [DecidablePred P] : (n : Node) → Decidable (n.All P)
  | .mk kind span slots =>
    have := decideAllInSlots (P := P) slots
    inferInstanceAs (Decidable (P (.mk kind span slots) ∧ AllInSlots P slots))
termination_by structural n => n

def Slot.decideAll {P : Node → Prop} [DecidablePred P] : (s : Slot) → Decidable (s.All P)
  | .node n => n.decideAll
  | .list ns => decideAllInNodes ns
  | .absent => .isTrue trivial
  | .scalar _ => .isTrue trivial
termination_by structural s => s

def decideAllInSlots {P : Node → Prop} [DecidablePred P] :
    (ss : List (Field × Slot)) → Decidable (AllInSlots P ss)
  | [] => .isTrue trivial
  | (_, slot) :: rest =>
    have := slot.decideAll (P := P)
    have := decideAllInSlots (P := P) rest
    inferInstanceAs (Decidable (slot.All P ∧ AllInSlots P rest))
termination_by structural ss => ss

def decideAllInNodes {P : Node → Prop} [DecidablePred P] :
    (ns : List Node) → Decidable (AllInNodes P ns)
  | [] => .isTrue trivial
  | n :: rest =>
    have := n.decideAll (P := P)
    have := decideAllInNodes (P := P) rest
    inferInstanceAs (Decidable (n.All P ∧ AllInNodes P rest))
termination_by structural ns => ns

end

instance {P : Node → Prop} [DecidablePred P] (n : Node) : Decidable (n.All P) := n.decideAll

/-- The nodes that a slot holds, in their order. -/
def Slot.children : Slot → List Node
  | node n => [n]
  | list ns => ns
  | absent => []
  | scalar _ => []

/-- The fields of a node in the order of its slots. -/
def Node.fields (n : Node) : List Field := n.slots.map Prod.fst

/-- No node of the tree repeats a field. -/
def Node.DistinctFields (root : Node) : Prop := root.All fun n => n.fields.Nodup

def Node.childAt? (n : Node) (step : Step) : Option Node :=
  (n.slot? step.field).bind fun slot => slot.child? step.index

/-! ## Every node of a tree -/

@[simp] theorem allInNodes_iff {P : Node → Prop} {ns : List Node} :
    AllInNodes P ns ↔ ∀ n ∈ ns, n.All P := by
  induction ns with
  | nil => simp [AllInNodes]
  | cons n rest ih => simp [AllInNodes, ih]

theorem Slot.all_iff {P : Node → Prop} {slot : Slot} :
    slot.All P ↔ ∀ c ∈ slot.children, c.All P := by
  cases slot <;> simp [Slot.All, Slot.children]

@[simp] theorem allInSlots_iff {P : Node → Prop} {slots : List (Field × Slot)} :
    AllInSlots P slots ↔ ∀ entry ∈ slots, entry.2.All P := by
  induction slots with
  | nil => simp [AllInSlots]
  | cons entry rest ih => simp [AllInSlots, ih]

theorem Node.all_iff {P : Node → Prop} {n : Node} :
    n.All P ↔ P n ∧ ∀ entry ∈ n.slots, ∀ c ∈ entry.2.children, c.All P := by
  cases n with
  | mk kind span slots => simp [Node.All, Slot.all_iff]

theorem Node.All.here {P : Node → Prop} {n : Node} (hall : n.All P) : P n :=
  (Node.all_iff.mp hall).1

theorem Node.All.child
    {P : Node → Prop} {n c : Node} {field : Field} {slot : Slot}
    (hall : n.All P) (hslot : (field, slot) ∈ n.slots) (hc : c ∈ slot.children) :
    c.All P :=
  (Node.all_iff.mp hall).2 (field, slot) hslot c hc

theorem Node.sizeOf_child_lt
    {n c : Node} {entry : Field × Slot}
    (hentry : entry ∈ n.slots) (hc : c ∈ entry.2.children) :
    sizeOf c < sizeOf n := by
  obtain ⟨kind, span, slots⟩ := n
  obtain ⟨field, slot⟩ := entry
  have hslots : sizeOf (field, slot) < sizeOf slots := List.sizeOf_lt_of_mem hentry
  have hslot : sizeOf c < sizeOf slot := by
    cases slot with
    | node child =>
        have hchild : c = child := by simpa [Slot.children] using hc
        subst hchild
        simp
    | list children =>
        have hlist : sizeOf c < sizeOf children := List.sizeOf_lt_of_mem hc
        simp only [Slot.list.sizeOf_spec]
        omega
    | absent => simp [Slot.children] at hc
    | scalar value => simp [Slot.children] at hc
  simp only [Prod.mk.sizeOf_spec, Node.mk.sizeOf_spec] at hslots ⊢
  omega

/-- Induction over a tree: a property passes from all children to their parent. -/
theorem Node.childInduction
    {motive : Node → Prop}
    (hparent : ∀ n, (∀ entry ∈ n.slots, ∀ c ∈ entry.2.children, motive c) → motive n)
    (n : Node) :
    motive n :=
  hparent n fun entry hentry c hc =>
    have := Node.sizeOf_child_lt hentry hc
    Node.childInduction hparent c
termination_by sizeOf n

theorem Node.All.imp
    {P Q : Node → Prop}
    (himp : ∀ n, P n → Q n)
    {n : Node}
    (hall : n.All P) :
    n.All Q := by
  induction n using Node.childInduction with
  | hparent n ih =>
      rw [Node.all_iff] at hall ⊢
      exact ⟨himp n hall.1, fun entry hentry c hc =>
        ih entry hentry c hc (hall.2 entry hentry c hc)⟩

theorem Node.All.and
    {P Q : Node → Prop} {n : Node}
    (hP : n.All P) (hQ : n.All Q) :
    n.All fun m => P m ∧ Q m := by
  induction n using Node.childInduction with
  | hparent n ih =>
      rw [Node.all_iff] at hP hQ ⊢
      exact ⟨⟨hP.1, hQ.1⟩, fun entry hentry c hc =>
        ih entry hentry c hc (hP.2 entry hentry c hc) (hQ.2 entry hentry c hc)⟩

/-! ## Slots and children -/

theorem mem_of_lookup_eq_some
    {α β : Type} [BEq α] [LawfulBEq α] {entries : List (α × β)} {key : α} {value : β}
    (hlookup : entries.lookup key = some value) :
    (key, value) ∈ entries := by
  obtain ⟨front, back, rfl, -⟩ := List.lookup_eq_some_iff.mp hlookup
  simp

theorem lookup_eq_some_of_mem
    {slots : List (Field × Slot)} {field : Field} {slot : Slot}
    (hdistinct : (slots.map Prod.fst).Nodup) (hmem : (field, slot) ∈ slots) :
    slots.lookup field = some slot := by
  induction slots with
  | nil => simp at hmem
  | cons entry rest ih =>
      obtain ⟨other, found⟩ := entry
      rw [List.map_cons, List.nodup_cons] at hdistinct
      rcases List.mem_cons.mp hmem with heq | hrest
      · cases heq
        simp
      · have hne : field ≠ other := by
          rintro rfl
          exact hdistinct.1 (List.mem_map.mpr ⟨_, hrest, rfl⟩)
        rw [List.lookup_cons, beq_false_of_ne hne]
        exact ih hdistinct.2 hrest

theorem lookup_setSlot
    (field other : Field) (slot : Slot) (slots : List (Field × Slot)) :
    (Node.setSlot field slot slots).lookup other =
      if other = field then some slot else slots.lookup other := by
  induction slots with
  | nil =>
      by_cases hother : other = field
      · simp [Node.setSlot, hother]
      · simp [Node.setSlot, List.lookup_cons, beq_false_of_ne hother, hother]
  | cons entry rest ih =>
      obtain ⟨first, found⟩ := entry
      rw [Node.setSlot]
      by_cases hfirst : first = field
      · rw [if_pos hfirst, hfirst, List.lookup_cons, List.lookup_cons]
        by_cases hother : other = field
        · simp [hother]
        · simp [beq_false_of_ne hother, hother]
      · rw [if_neg hfirst, List.lookup_cons, List.lookup_cons, ih]
        by_cases hother : other = first
        · have hne : other ≠ field := by
            rw [hother]
            exact hfirst
          simp [hother, hfirst]
        · simp [beq_false_of_ne hother]

theorem Node.mem_slots_of_slot?
    {n : Node} {field : Field} {slot : Slot}
    (hslot : n.slot? field = some slot) :
    (field, slot) ∈ n.slots :=
  mem_of_lookup_eq_some hslot

theorem Node.slot?_eq_some_iff
    {n : Node}
    (hdistinct : n.fields.Nodup)
    {field : Field} {slot : Slot} :
    n.slot? field = some slot ↔ (field, slot) ∈ n.slots :=
  ⟨Node.mem_slots_of_slot?, lookup_eq_some_of_mem hdistinct⟩

theorem Node.All.slot
    {P : Node → Prop} {n : Node}
    (hall : n.All P)
    (field : Field) :
    ∀ c ∈ ((n.slot? field).getD .absent).children, c.All P := by
  intro c hc
  cases hslot : n.slot? field with
  | none => simp [hslot, Slot.children] at hc
  | some slot =>
      rw [hslot] at hc
      exact hall.child (Node.mem_slots_of_slot? hslot) hc

theorem Node.child?_eq_some_iff {n c : Node} {field : Field} :
    n.child? field = some c ↔ n.slot? field = some (.node c) := by
  unfold Node.child?
  cases n.slot? field with
  | none => simp
  | some slot => cases slot <;> simp

theorem Node.name?_eq_some_iff {n : Node} {name : String} :
    n.name? = some name ↔ n.kind = .identifier ∧ n.slot? .name = some (.text name) := by
  unfold Node.name?
  split_ifs with hkind
  · simp only [Node.text?, Node.scalar?, hkind, true_and]
    cases n.slot? .name with
    | none => simp
    | some slot =>
        cases slot with
        | scalar s => cases s <;> simp [Slot.text]
        | _ => simp [Slot.text]
  · simp [hkind]

theorem Node.mem_list {n c : Node} {field : Field} (hc : c ∈ n.list field) :
    ∃ items, n.slot? field = some (.list items) ∧ c ∈ items := by
  unfold Node.list at hc
  cases hslot : n.slot? field with
  | none => simp [hslot] at hc
  | some slot =>
      rw [hslot] at hc
      cases slot with
      | list items => exact ⟨items, rfl, hc⟩
      | _ => simp at hc

theorem Slot.mem_children_of_child?
    {slot : Slot} {index : Option Nat} {c : Node}
    (hc : slot.child? index = some c) :
    c ∈ slot.children := by
  cases slot <;> cases index <;> simp [Slot.child?, Slot.children] at hc ⊢
  · exact hc.symm
  · exact List.mem_of_getElem? hc

theorem Node.childAt?_eq_some_iff {n c : Node} {step : Step} :
    n.childAt? step = some c ↔
      ∃ slot, n.slot? step.field = some slot ∧ slot.child? step.index = some c :=
  Option.bind_eq_some_iff

theorem Node.All.childAt
    {P : Node → Prop} {n c : Node} {step : Step}
    (hall : n.All P) (hstep : n.childAt? step = some c) :
    c.All P := by
  obtain ⟨slot, hslot, hc⟩ := Node.childAt?_eq_some_iff.mp hstep
  exact hall.child (Node.mem_slots_of_slot? hslot) (Slot.mem_children_of_child? hc)

/-! ## Paths -/

theorem Path.resolve?_cons (step : Step) (rest : Path) (n : Node) :
    Path.resolve? (step :: rest) n = (n.childAt? step).bind (Path.resolve? rest) := by
  simp only [Path.resolve?, Node.childAt?, Option.bind_eq_bind, Option.bind_assoc]

theorem Node.All.resolve
    {P : Node → Prop} {root n : Node} {path : Path}
    (hall : root.All P) (hpath : Path.resolve? path root = some n) :
    n.All P := by
  induction path generalizing root with
  | nil =>
      cases hpath
      exact hall
  | cons step rest ih =>
      rw [Path.resolve?_cons] at hpath
      obtain ⟨c, hc, hrest⟩ := Option.bind_eq_some_iff.mp hpath
      exact ih (hall.childAt hc) hrest

/-- The parent of the node at the end of a path, and the field under which it stands. -/
def Path.site? (path : Path) (root : Node) : Option Site := do
  let last ← path.getLast?
  let parent ← Path.resolve? path.dropLast root
  return ⟨parent, last.field⟩

@[simp] theorem Path.site?_nil (root : Node) : Path.site? [] root = none := rfl

theorem Path.site?_append_singleton (front : Path) (last : Step) (root : Node) :
    Path.site? (front ++ [last]) root =
      (Path.resolve? front root).map fun parent => ⟨parent, last.field⟩ := by
  simp only [Path.site?, List.getLast?_append, List.getLast?_singleton, Option.some_or,
    List.dropLast_concat, Option.bind_eq_bind, Option.bind_some]
  cases Path.resolve? front root <;> rfl

theorem Path.resolve?_append_singleton_eq_some
    {front : Path} {last : Step} {root n : Node}
    (hpath : Path.resolve? (front ++ [last]) root = some n) :
    ∃ parent, Path.resolve? front root = some parent ∧ parent.childAt? last = some n := by
  rw [Path.resolve?_append] at hpath
  obtain ⟨parent, hparent, hlast⟩ := Option.bind_eq_some_iff.mp hpath
  rw [Path.resolve?_cons] at hlast
  obtain ⟨c, hc, hnil⟩ := Option.bind_eq_some_iff.mp hlast
  cases hnil
  exact ⟨parent, hparent, hc⟩

theorem Path.exists_slot_of_site?
    {path : Path} {root n : Node} {site : Site}
    (hresolve : Path.resolve? path root = some n) (hsite : Path.site? path root = some site) :
    (∃ front, Path.resolve? front root = some site.parent) ∧
      ∃ slot, (site.field, slot) ∈ site.parent.slots ∧ n ∈ slot.children := by
  rcases List.eq_nil_or_concat path with rfl | ⟨front, last, rfl⟩
  · cases hsite
  · rw [List.concat_eq_append] at hresolve hsite
    obtain ⟨parent, hparent, hchild⟩ := Path.resolve?_append_singleton_eq_some hresolve
    rw [Path.site?_append_singleton, hparent] at hsite
    cases hsite
    obtain ⟨slot, hslot, hc⟩ := Node.childAt?_eq_some_iff.mp hchild
    exact ⟨⟨front, hparent⟩, slot, Node.mem_slots_of_slot? hslot,
      Slot.mem_children_of_child? hc⟩

/-- A node that stands at `outer` passes itself on as the site of its children. -/
theorem Path.site?_cons_or
    {n c found : Node} {step : Step} {rest : Path}
    (hstep : n.childAt? step = some c) (hrest : Path.resolve? rest c = some found)
    (outer : Option Site) :
    (Path.site? (step :: rest) n).or outer =
      (Path.site? rest c).or (some ⟨n, step.field⟩) := by
  rcases List.eq_nil_or_concat rest with rfl | ⟨front, last, rfl⟩
  · rfl
  · rw [List.concat_eq_append] at hrest ⊢
    obtain ⟨parent, hparent, -⟩ := Path.resolve?_append_singleton_eq_some hrest
    have hfront : Path.resolve? (step :: front) n = some parent := by
      rw [Path.resolve?_cons, hstep]
      exact hparent
    rw [← List.cons_append, Path.site?_append_singleton, Path.site?_append_singleton,
      hparent, hfront]
    rfl

end Graft
