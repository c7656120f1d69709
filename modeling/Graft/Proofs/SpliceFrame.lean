import Graft.Proofs.KeepShape
import Graft.Proofs.Simultaneous

/-!
# A splice changes its region and nothing else

After a splice the place of the region holds the fitted replacement, every node on the way to it
differs from what it was in one slot only, and every node that is neither on the way nor inside the
region is found where it was.  Behind a run that was replaced by more or fewer nodes, "where it was"
means at a position that has moved by the difference.

The rebuilding of the way is opened once, in `Node.childAt?_editSlot?`; the rest is an induction on
the path of the slot.
-/

namespace Graft

/-- Two nodes that differ in one slot at most, which stands at the same place in both. -/
structure Node.SameBut (field : Field) (old new : Node) : Prop where
  kind : new.kind = old.kind
  span : new.span = old.span
  fields : new.fields = old.fields
  others : new.slots.filter (fun entry => entry.1 ≠ field) =
    old.slots.filter (fun entry => entry.1 ≠ field)

/-- Where a path leads after a run of the list at `parent` has been replaced by `count` nodes. -/
def Path.shifted (field : Field) (start length count : Nat) : (parent path : Path) → Path
  | [], ⟨f, some i⟩ :: rest =>
    if f = field ∧ start + length ≤ i then ⟨f, some (i - length + count)⟩ :: rest
    else ⟨f, some i⟩ :: rest
  | first :: parent, step :: rest =>
    if step = first then step :: shifted field start length count parent rest else step :: rest
  | _, path => path

namespace Region

/-- Where a path leads after the region has been replaced by `count` nodes. -/
def shift (count : Nat) : Region → Path → Path
  | node _, path => path
  | run parent field start length, path => Path.shifted field start length count parent path

/-- The path of the node that holds the slot of the region. -/
def holder : Region → Path
  | node path => path.dropLast
  | run parent _ _ _ => parent

/-- The path neither leads to a node above the slot of the region nor through the region. -/
structure Misses (region : Region) (path : Path) : Prop where
  notAbove : ¬ path <+: region.holder
  notThrough : ∀ top ∈ region.roots, ¬ top <+: path

/-- The region is a node or a run in range of a list of the tree. -/
def Addresses (root : Node) : Region → Prop
  | node path => ∃ n, Path.resolve? path root = some n
  | run parent field start length =>
    ∃ n items, Path.resolve? parent root = some n ∧ n.slot? field = some (.list items) ∧
      start + length ≤ items.length

/-- The place of the region in the new tree holds the given nodes; of a list, what stands in front
of the run and behind it is kept. -/
def Holds (root tree : Node) (body : List Node) : Region → Prop
  | node path => ∃ new, body = [new] ∧ Path.resolve? path tree = some new
  | run parent field start length =>
    ∃ old new items, Path.resolve? parent root = some old ∧
      old.slot? field = some (.list items) ∧ start + length ≤ items.length ∧
      Path.resolve? parent tree = some new ∧
      new.slot? field = some (.list (items.take start ++ body ++ items.drop (start + length)))

/-- The tree `tree` is `root` with the region replaced by some nodes. -/
structure Replaced (root tree : Node) (body : List Node) (region : Region) : Prop where
  place : region.Holds root tree body
  frame : ∀ path, region.Misses path →
    Path.resolve? (region.shift body.length path) tree = Path.resolve? path root
  above : ∀ front step rest, region.anchor = front ++ step :: rest →
    ∃ old new, Path.resolve? front root = some old ∧ Path.resolve? front tree = some new ∧
      old.SameBut step.field new

end Region

/-! ## One slot of one node -/

theorem filter_setSlot
    (field : Field)
    {slots : List (Field × Slot)}
    (hfield : field ∈ slots.map Prod.fst)
    (slot : Slot) :
    (Node.setSlot field slot slots).filter (fun entry => entry.1 ≠ field) =
      slots.filter (fun entry => entry.1 ≠ field) := by
  induction slots with
  | nil => simp at hfield
  | cons entry rest ih =>
      obtain ⟨first, found⟩ := entry
      rw [Node.setSlot]
      by_cases hfirst : first = field
      · simp [hfirst]
      · have hrest : field ∈ rest.map Prod.fst := by
          rcases List.mem_cons.mp hfield with hhead | hrest
          · exact absurd hhead.symm hfirst
          · exact hrest
        rw [if_neg hfirst, List.filter_cons, List.filter_cons, ih hrest]

theorem Node.sameBut_set
    {n : Node} {field : Field} {old : Slot}
    (hslot : n.slot? field = some old)
    (new : Slot) :
    n.SameBut field (n.set field new) := by
  have hfield : field ∈ n.slots.map Prod.fst :=
    List.mem_map.mpr ⟨_, Node.mem_slots_of_slot? hslot, rfl⟩
  exact ⟨rfl, rfl, fields_setSlot hfield new, filter_setSlot field hfield new⟩

theorem Node.slot?_set (n : Node) (field other : Field) (slot : Slot) :
    (n.set field slot).slot? other = if other = field then some slot else n.slot? other :=
  lookup_setSlot field other slot n.slots

theorem Node.childAt?_set
    (n : Node) (field : Field) (slot : Slot) (step : Step) :
    (n.set field slot).childAt? step =
      if step.field = field then slot.child? step.index else n.childAt? step := by
  unfold Node.childAt?
  rw [Node.slot?_set]
  split
  · rfl
  · rfl

theorem Slot.child?_setChild?
    {slot slot' : Slot} {index : Option Nat} {child : Node}
    (hset : slot.setChild? index child = some slot')
    (other : Option Nat) :
    slot'.child? other = if other = index then some child else slot.child? other := by
  cases slot <;> cases index <;> simp only [Slot.setChild?, reduceCtorEq] at hset
  case node.none old =>
    cases hset
    cases other <;> rfl
  case list.some ns i =>
    split_ifs at hset with hi
    cases hset
    cases other with
    | none => rfl
    | some j =>
        by_cases hj : j = i
        · subst hj
          simp [Slot.child?, hi]
        · simp [Slot.child?, hj, List.getElem?_set_ne (Ne.symm hj)]

/-- Putting a node in the place of one child keeps all the others. -/
theorem Node.childAt?_set_setChild?
    {n child : Node} {place : Step} {slot slot' : Slot}
    (hslot : n.slot? place.field = some slot)
    (hset : slot.setChild? place.index child = some slot')
    (step : Step) :
    (n.set place.field slot').childAt? step =
      if step = place then some child else n.childAt? step := by
  rw [Node.childAt?_set, Slot.child?_setChild? hset]
  obtain ⟨f, index⟩ := step
  obtain ⟨f', index'⟩ := place
  by_cases hfield : f = f'
  · subst hfield
    by_cases hindex : index = index'
    · simp [hindex]
    · simp [hindex, Node.childAt?, hslot]
  · simp [hfield]

theorem Slot.exists_setChild?
    {slot : Slot} {index : Option Nat} {old : Node}
    (hold : slot.child? index = some old)
    (child : Node) :
    ∃ slot', slot.setChild? index child = some slot' := by
  cases slot <;> cases index <;> simp only [Slot.child?, reduceCtorEq] at hold
  case node.none => exact ⟨_, rfl⟩
  case list.some ns i =>
    have hi := (List.getElem?_eq_some_iff.mp hold).1
    exact ⟨.list (ns.set i child), by simp [Slot.setChild?, hi]⟩

theorem Slot.child?_of_setChild?
    {slot slot' : Slot} {index : Option Nat} {child : Node}
    (hset : slot.setChild? index child = some slot') :
    ∃ old, slot.child? index = some old := by
  cases slot <;> cases index <;> simp only [Slot.setChild?, reduceCtorEq] at hset
  case node.none old => exact ⟨old, rfl⟩
  case list.some ns i =>
    split_ifs at hset with hi
    exact ⟨ns[i], List.getElem?_eq_getElem hi⟩

/-! ## The way to an edited slot -/

theorem Node.editSlot?_nil_eq_some
    {field : Field} {edit : Slot → Option Slot} {n n' : Node}
    (hedit : n.editSlot? field edit [] = some n') :
    ∃ slot slot', n.slot? field = some slot ∧ edit slot = some slot' ∧ n' = n.set field slot' := by
  simp only [Node.editSlot?, Option.bind_eq_bind, Option.bind_eq_some_iff] at hedit
  obtain ⟨slot, hslot, slot', hslot', hn'⟩ := hedit
  cases hn'
  exact ⟨slot, slot', hslot, hslot', rfl⟩

/-- Below the first step the edit goes on in the child there; all other children are kept. -/
theorem Node.childAt?_editSlot?
    {field : Field} {edit : Slot → Option Slot} {first : Step} {path : Path} {n n' : Node}
    (hedit : n.editSlot? field edit (first :: path) = some n') :
    ∃ child child', n.childAt? first = some child ∧
      child.editSlot? field edit path = some child' ∧ n.SameBut first.field n' ∧
      ∀ step, n'.childAt? step = if step = first then some child' else n.childAt? step := by
  simp only [Node.editSlot?, Option.bind_eq_bind, Option.bind_eq_some_iff] at hedit
  obtain ⟨slot, hslot, child, hchild, child', hchild', slot', hslot', hn'⟩ := hedit
  cases hn'
  exact ⟨child, child', Node.childAt?_eq_some_iff.mpr ⟨slot, hslot, hchild⟩, hchild',
    Node.sameBut_set hslot slot', Node.childAt?_set_setChild? hslot hslot'⟩

theorem Node.exists_editSlot?
    {field : Field} {edit : Slot → Option Slot} {path : Path} {n target : Node}
    {slot slot' : Slot}
    (htarget : Path.resolve? path n = some target)
    (hslot : target.slot? field = some slot)
    (hedit : edit slot = some slot') :
    ∃ n', n.editSlot? field edit path = some n' := by
  induction path generalizing n with
  | nil =>
      cases htarget
      exact ⟨target.set field slot', by simp [Node.editSlot?, hslot, hedit]⟩
  | cons step rest ih =>
      rw [Path.resolve?_cons] at htarget
      obtain ⟨child, hchild, hrest⟩ := Option.bind_eq_some_iff.mp htarget
      obtain ⟨found, hfound, hindex⟩ := Node.childAt?_eq_some_iff.mp hchild
      obtain ⟨child', hchild'⟩ := ih hrest
      obtain ⟨found', hfound'⟩ := Slot.exists_setChild? hindex child'
      exact ⟨n.set step.field found', by
        simp [Node.editSlot?, hfound, hindex, hchild', hfound']⟩

/-- The node that holds the edited slot, before and after. -/
theorem Node.resolve?_holder_editSlot?
    {field : Field} {edit : Slot → Option Slot} {path : Path} {n n' : Node}
    (hedit : n.editSlot? field edit path = some n') :
    ∃ target slot slot', Path.resolve? path n = some target ∧ target.slot? field = some slot ∧
      edit slot = some slot' ∧ Path.resolve? path n' = some (target.set field slot') := by
  induction path generalizing n n' with
  | nil =>
      obtain ⟨slot, slot', hslot, hslot', rfl⟩ := Node.editSlot?_nil_eq_some hedit
      exact ⟨n, slot, slot', rfl, hslot, hslot', rfl⟩
  | cons first path ih =>
      obtain ⟨child, child', hchild, hchild', -, hsteps⟩ := Node.childAt?_editSlot? hedit
      obtain ⟨target, slot, slot', htarget, hslot, hslot', htarget'⟩ := ih hchild'
      refine ⟨target, slot, slot', ?_, hslot, hslot', ?_⟩
      · rw [Path.resolve?_cons, hchild]
        exact htarget
      · rw [Path.resolve?_cons, hsteps, if_pos rfl]
        exact htarget'

/-- A path that leaves the way to the edited slot above it leads to the same node as before. -/
theorem Node.resolve?_editSlot?_aside
    {field : Field} {edit : Slot → Option Slot} {way : Path} {n n' : Node}
    (hedit : n.editSlot? field edit way = some n')
    {path : Path}
    (hbelow : ¬ way <+: path) (habove : ¬ path <+: way) :
    Path.resolve? path n' = Path.resolve? path n := by
  induction way generalizing n n' path with
  | nil => exact absurd List.nil_prefix hbelow
  | cons first way ih =>
      obtain ⟨child, child', hchild, hchild', -, hsteps⟩ := Node.childAt?_editSlot? hedit
      cases path with
      | nil => exact absurd List.nil_prefix habove
      | cons step rest =>
          rw [Path.resolve?_cons, Path.resolve?_cons, hsteps]
          by_cases hstep : step = first
          · subst hstep
            rw [if_pos rfl, hchild]
            simp only [List.cons_prefix_cons, true_and] at hbelow habove
            exact ih hchild' hbelow habove
          · rw [if_neg hstep]

/-- Every node on the way keeps all but the slot through which the way goes on. -/
theorem Node.sameBut_editSlot?
    {field : Field} {edit : Slot → Option Slot} {way : Path} {n n' : Node}
    (hedit : n.editSlot? field edit way = some n')
    {last : Step}
    (hlast : last.field = field)
    {front rest : Path} {step : Step}
    (hsplit : way ++ [last] = front ++ step :: rest) :
    ∃ old new, Path.resolve? front n = some old ∧ Path.resolve? front n' = some new ∧
      old.SameBut step.field new := by
  induction way generalizing n n' front with
  | nil =>
      obtain ⟨slot, slot', hslot, -, rfl⟩ := Node.editSlot?_nil_eq_some hedit
      obtain ⟨rfl, hstep, -⟩ : front = [] ∧ step = last ∧ rest = [] := by
        rcases List.append_eq_cons_iff.mp hsplit.symm with ⟨rfl, hcons⟩ | ⟨as, -, has⟩
        · exact ⟨rfl, (List.cons.inj hcons).1, (List.cons.inj hcons).2⟩
        · simp at has
      rw [hstep, hlast]
      exact ⟨n, _, rfl, rfl, Node.sameBut_set hslot slot'⟩
  | cons first way ih =>
      obtain ⟨child, child', hchild, hchild', hsame, hsteps⟩ := Node.childAt?_editSlot? hedit
      cases front with
      | nil =>
          obtain ⟨rfl, -⟩ := List.cons.inj hsplit
          exact ⟨n, n', rfl, rfl, hsame⟩
      | cons first' front =>
          obtain ⟨rfl, htail⟩ := List.cons.inj hsplit
          obtain ⟨old, new, hold, hnew, hsame⟩ := ih hchild' htail
          refine ⟨old, new, ?_, ?_, hsame⟩
          · rw [Path.resolve?_cons, hchild]
            exact hold
          · rw [Path.resolve?_cons, hsteps, if_pos rfl]
            exact hnew

/-! ## Replacing a run -/

theorem Path.shifted_of_not_prefix
    {field : Field} {start length count : Nat} {parent path : Path}
    (hpre : ¬ parent <+: path) :
    Path.shifted field start length count parent path = path := by
  induction parent generalizing path with
  | nil => exact absurd List.nil_prefix hpre
  | cons first parent ih =>
      cases path with
      | nil => rfl
      | cons step rest =>
          rw [Path.shifted]
          by_cases hstep : step = first
          · subst hstep
            rw [List.cons_prefix_cons] at hpre
            rw [if_pos rfl, ih fun hrest => hpre ⟨rfl, hrest⟩]
          · rw [if_neg hstep]

theorem Path.shifted_append
    (field : Field) (start length count : Nat) (parent path : Path) :
    Path.shifted field start length count parent (parent ++ path) =
      parent ++ Path.shifted field start length count [] path := by
  induction parent with
  | nil => rfl
  | cons first parent ih => rw [List.cons_append, Path.shifted, if_pos rfl, ih, List.cons_append]

theorem getElem?_splice_behind
    {items : List Node} {start length i : Nat}
    (body : List Node)
    (hrun : start + length ≤ items.length) (hi : start + length ≤ i) :
    (items.take start ++ body ++ items.drop (start + length))[i - length + body.length]? =
      items[i]? := by
  have hfront : (items.take start ++ body).length = start + body.length := by
    rw [List.length_append, List.length_take]
    omega
  rw [List.getElem?_append_right (by omega), List.getElem?_drop, hfront]
  congr 1
  omega

theorem getElem?_splice_front
    {items : List Node} {start length i : Nat}
    (body : List Node)
    (hrun : start + length ≤ items.length) (hi : i < start) :
    (items.take start ++ body ++ items.drop (start + length))[i]? = items[i]? := by
  have hfront : i < (items.take start).length := by
    rw [List.length_take]
    omega
  rw [List.append_assoc, List.getElem?_append_left hfront, List.getElem?_take, if_pos hi]

/-- The children of the node that holds the list: those outside the run are found again. -/
theorem Node.childAt?_splice_run
    {holder : Node} {field : Field} {items : List Node} {start length : Nat}
    (hslot : holder.slot? field = some (.list items)) (hrun : start + length ≤ items.length)
    (body : List Node)
    {step : Step} {rest : Path}
    (hstep : ∀ i, start ≤ i → i < start + length → step ≠ ⟨field, some i⟩) :
    Path.resolve? (Path.shifted field start length body.length [] (step :: rest))
        (holder.set field (.list (items.take start ++ body ++ items.drop (start + length)))) =
      Path.resolve? (step :: rest) holder := by
  obtain ⟨f, index⟩ := step
  by_cases hfield : f = field
  · subst hfield
    have hholder : ∀ index', holder.childAt? ⟨f, index'⟩ = (Slot.list items).child? index' := by
      intro index'
      simp [Node.childAt?, hslot]
    cases index with
    | none =>
        rw [Path.shifted.eq_def, Path.resolve?_cons, Path.resolve?_cons, Node.childAt?_set,
          if_pos rfl, hholder]
        rfl
    | some i =>
        rw [Path.shifted]
        by_cases hbehind : start + length ≤ i
        · rw [if_pos ⟨rfl, hbehind⟩, Path.resolve?_cons, Path.resolve?_cons, Node.childAt?_set,
            if_pos rfl, hholder]
          simp only [Slot.child?]
          rw [getElem?_splice_behind body hrun hbehind]
        · have hfront : i < start := by
            by_contra hinside
            exact hstep i (by omega) (by omega) rfl
          rw [if_neg fun hboth => hbehind hboth.2, Path.resolve?_cons, Path.resolve?_cons,
            Node.childAt?_set, if_pos rfl, hholder]
          simp only [Slot.child?]
          rw [getElem?_splice_front body hrun hfront]
  · have hsame : Path.shifted field start length body.length [] (⟨f, index⟩ :: rest) =
        ⟨f, index⟩ :: rest := by
      cases index with
      | none => rfl
      | some i => rw [Path.shifted, if_neg fun hboth => hfield hboth.1]
    rw [hsame, Path.resolve?_cons, Path.resolve?_cons, Node.childAt?_set, if_neg hfield]

theorem Region.replaced_run
    {root tree : Node} {parent : Path} {field : Field} {start length : Nat} {body : List Node}
    (hedit : root.editSlot? field (fun slot => slot.setRun? start length body) parent = some tree) :
    (Region.run parent field start length).Replaced root tree body := by
  obtain ⟨holder, slot, slot', hholder, hslot, hslot', hholder'⟩ :=
    Node.resolve?_holder_editSlot? hedit
  obtain ⟨items, rfl, hrun, rfl⟩ : ∃ items, slot = .list items ∧ start + length ≤ items.length ∧
      slot' = .list (items.take start ++ body ++ items.drop (start + length)) := by
    cases slot <;> simp only [Slot.setRun?, reduceCtorEq] at hslot'
    case list items =>
      split_ifs at hslot' with hrun
      cases hslot'
      exact ⟨items, rfl, hrun, rfl⟩
  refine ⟨?_, fun path hmisses => ?_, fun front step rest hsplit => ?_⟩
  · refine ⟨holder, _, items, hholder, hslot, hrun, hholder', ?_⟩
    rw [Node.slot?_set, if_pos rfl]
  · change Path.resolve? (Path.shifted field start length body.length parent path) tree = _
    by_cases hbelow : parent <+: path
    · obtain ⟨inner, rfl⟩ := hbelow
      cases inner with
      | nil => exact absurd (by simp [Region.holder]) hmisses.notAbove
      | cons step rest =>
          rw [Path.shifted_append, Path.resolve?_append, Path.resolve?_append, hholder, hholder',
            Option.bind_some, Option.bind_some]
          refine Node.childAt?_splice_run hslot hrun body fun i hstart hstop hstep => ?_
          refine hmisses.notThrough _ (Region.mem_roots_run.mpr ⟨i, hstart, hstop, rfl⟩) ?_
          rw [hstep, List.prefix_append_right_inj]
          exact ⟨rest, rfl⟩
    · rw [Path.shifted_of_not_prefix hbelow]
      exact Node.resolve?_editSlot?_aside hedit hbelow hmisses.notAbove
  · exact Node.sameBut_editSlot? hedit rfl hsplit

/-! ## Replacing a node -/

theorem Region.replaced_node
    {root tree child : Node} {front : Path} {last : Step}
    (hedit : root.editSlot? last.field (fun slot => slot.setChild? last.index child) front =
      some tree) :
    (Region.node (front ++ [last])).Replaced root tree [child] := by
  obtain ⟨holder, slot, slot', hholder, hslot, hslot', hholder'⟩ :=
    Node.resolve?_holder_editSlot? hedit
  have hchildren := Node.childAt?_set_setChild? hslot hslot'
  refine ⟨⟨child, rfl, ?_⟩, fun path hmisses => ?_, fun front' step rest hsplit => ?_⟩
  · rw [Path.resolve?_append, hholder', Option.bind_some, Path.resolve?_cons, hchildren,
      if_pos rfl]
    rfl
  · change Path.resolve? path tree = _
    have habove : ¬ path <+: front := by simpa [Region.holder] using hmisses.notAbove
    have hthrough : ¬ front ++ [last] <+: path :=
      hmisses.notThrough _ (List.mem_singleton.mpr rfl)
    by_cases hbelow : front <+: path
    · obtain ⟨inner, rfl⟩ := hbelow
      cases inner with
      | nil => exact absurd (by simp) habove
      | cons step rest =>
          have hstep : step ≠ last := by
            rintro rfl
            exact hthrough ⟨rest, by simp⟩
          rw [Path.resolve?_append, Path.resolve?_append, hholder, hholder', Option.bind_some,
            Option.bind_some, Path.resolve?_cons, Path.resolve?_cons, hchildren, if_neg hstep]
    · exact Node.resolve?_editSlot?_aside hedit hbelow habove
  · exact Node.sameBut_editSlot? hedit rfl hsplit

/-! ## Splices -/

theorem Node.splice_child
    {root parent : Node} {front : Path} {last : Step}
    (hparent : Path.resolve? front root = some parent)
    (r : Replacement) :
    root.splice (.node (front ++ [last])) r = (do
      let child ← r.toNode (parent.kind.hasStatementSlot last.field)
      checkSlot parent last.field child
      match root.editSlot? last.field (fun slot => slot.setChild? last.index child) front with
      | some tree => .ok tree
      | none => .error .noSuchPlace) := by
  have hlast : (front ++ [last]).getLast? = some last := List.getLast?_concat
  have hfront : (front ++ [last]).dropLast = front := List.dropLast_concat
  unfold Node.splice
  simp only [hlast, hfront]
  split
  next found hfound =>
    cases hparent.symm.trans hfound
    rfl
  next hnone => exact absurd hparent (hnone parent)

theorem Node.splice_no_parent
    {root : Node} {front : Path} {last : Step}
    (hparent : Path.resolve? front root = none)
    (r : Replacement) :
    root.splice (.node (front ++ [last])) r = .error .noSuchPlace := by
  simp only [Node.splice, List.getLast?_append, List.getLast?_singleton, Option.some_or,
    List.dropLast_concat, hparent]

theorem Replacement.fitInto_child
    {root parent : Node} {front : Path} {last : Step}
    (hparent : Path.resolve? front root = some parent)
    (r : Replacement) :
    r.fitInto root (.node (front ++ [last])) = (do
      let child ← r.toNode (parent.kind.hasStatementSlot last.field)
      checkSlot parent last.field child
      return [child]) := by
  simp only [Replacement.fitInto, Path.site?_append_singleton, hparent, Option.map_some]

/-- A splice at a region of the tree does what the fitting of the replacement allows. -/
theorem Node.splice_of_addresses
    {root : Node} {region : Region}
    (r : Replacement)
    (haddresses : region.Addresses root) :
    (∃ body tree, r.fitInto root region = .ok body ∧ root.splice region r = .ok tree) ∨
      ∃ e, e ≠ .noSuchPlace ∧ r.fitInto root region = .error e ∧
        root.splice region r = .error e := by
  cases region with
  | node path =>
      rcases List.eq_nil_or_concat path with rfl | ⟨front, last, rfl⟩
      · have hsplice : root.splice (.node []) r = r.toNode false := rfl
        have hfit : r.fitInto root (.node []) = (do return [← r.toNode false]) := rfl
        rw [hsplice, hfit]
        cases hnode : r.toNode false with
        | ok child => exact .inl ⟨[child], child, rfl, rfl⟩
        | error e => exact .inr ⟨e, fun he => findsPlace_toNode r false (he ▸ hnode), rfl, rfl⟩
      · rw [List.concat_eq_append] at haddresses ⊢
        obtain ⟨n, hn⟩ := haddresses
        obtain ⟨parent, hparent, hchild⟩ := Path.resolve?_append_singleton_eq_some hn
        obtain ⟨slot, hslot, hindex⟩ := Node.childAt?_eq_some_iff.mp hchild
        rw [Node.splice_child hparent, Replacement.fitInto_child hparent]
        cases hnode : r.toNode (parent.kind.hasStatementSlot last.field) with
        | error e => exact .inr ⟨e, fun he => findsPlace_toNode r _ (he ▸ hnode), rfl, rfl⟩
        | ok child =>
            cases hcheck : checkSlot parent last.field child with
            | error e =>
                refine .inr ⟨e, fun he => findsPlace_checkSlot _ _ _ (he ▸ hcheck), ?_, ?_⟩
                · simp [bind, Except.bind, hcheck]
                · simp [bind, Except.bind, hcheck]
            | ok =>
                let edit (slot : Slot) := slot.setChild? last.index child
                obtain ⟨slot', hslot'⟩ : ∃ slot', edit slot = some slot' :=
                  Slot.exists_setChild? hindex child
                obtain ⟨tree, htree⟩ := Node.exists_editSlot? hparent hslot hslot'
                refine .inl ⟨[child], tree, ?_, ?_⟩
                · simp [bind, Except.bind, hcheck, pure, Except.pure]
                · simp [bind, Except.bind, hcheck, edit, htree]
  | run parent field start length =>
      obtain ⟨n, items, hn, hslot, hrun⟩ := haddresses
      let edit (slot : Slot) := slot.setRun? start length r.toStatements
      obtain ⟨slot', hslot'⟩ : ∃ slot', edit (.list items) = some slot' :=
        ⟨_, if_pos hrun⟩
      obtain ⟨tree, htree⟩ := Node.exists_editSlot? hn hslot hslot'
      exact .inl ⟨r.toStatements, tree, rfl, by simp [Node.splice, edit, htree]⟩

theorem Region.addresses_node
    {root tree child : Node} {front : Path} {last : Step}
    (hedit : root.editSlot? last.field (fun slot => slot.setChild? last.index child) front =
      some tree) :
    (Region.node (front ++ [last])).Addresses root := by
  obtain ⟨holder, slot, slot', hholder, hslot, hslot', -⟩ := Node.resolve?_holder_editSlot? hedit
  obtain ⟨old, hold⟩ := Slot.child?_of_setChild? hslot'
  refine ⟨old, ?_⟩
  rw [Path.resolve?_append, hholder, Option.bind_some, Path.resolve?_cons,
    Node.childAt?_eq_some_iff.mpr ⟨slot, hslot, hold⟩]
  rfl

/-- A splice that succeeds has found its region and replaced it. -/
theorem Node.replaced_of_splice
    {root tree : Node} {region : Region} {r : Replacement}
    (hsplice : root.splice region r = .ok tree) :
    region.Addresses root ∧
      ∃ body, r.fitInto root region = .ok body ∧ region.Replaced root tree body := by
  cases region with
  | node path =>
      rcases List.eq_nil_or_concat path with rfl | ⟨front, last, rfl⟩
      · have hnode : r.toNode false = .ok tree := hsplice
        refine ⟨⟨root, rfl⟩, [tree], ?_, ⟨tree, rfl, rfl⟩, fun path hmisses => ?_, ?_⟩
        · change (do return [← r.toNode false]) = _
          rw [hnode]
          rfl
        · exact absurd List.nil_prefix (hmisses.notThrough [] (List.mem_singleton.mpr rfl))
        · intro front step rest hsplit
          simp at hsplit
      · rw [List.concat_eq_append] at hsplice ⊢
        cases hparent : Path.resolve? front root with
        | none =>
            rw [Node.splice_no_parent hparent] at hsplice
            cases hsplice
        | some parent =>
            rw [Node.splice_child hparent] at hsplice
            simp only [bind_eq_ok_iff] at hsplice
            obtain ⟨child, hchild, ⟨⟩, hcheck, hedited⟩ := hsplice
            split at hedited
            next found hfound =>
              cases hedited
              refine ⟨Region.addresses_node hfound, [child], ?_, Region.replaced_node hfound⟩
              simp [Replacement.fitInto_child hparent, hchild, hcheck, bind, Except.bind, pure,
                Except.pure]
            next => cases hedited
  | run parent field start length =>
      simp only [Node.splice] at hsplice
      split at hsplice
      next found hfound =>
        cases hsplice
        have hreplaced := Region.replaced_run hfound
        obtain ⟨old, -, items, hold, hslot, hrun, -⟩ := hreplaced.place
        exact ⟨⟨old, items, hold, hslot, hrun⟩, r.toStatements, rfl, hreplaced⟩
      next => cases hsplice

/-- A splice edits exactly its region.  It succeeds exactly when the region is a node or a run in
range of the tree and the replacement fits there.  The new tree then holds the fitted replacement
at the region; a path that leads neither to a node above the edited slot nor through the region
leads to the node it led to before, where positions behind a run move with the length of the list;
and the nodes above the slot keep their kind, their span, the order of their fields and all slots
but the one on the way.  A place is reported as missing only if the region is not in the tree. -/
theorem Node.splice_edits_exactly_region
    (root : Node) (region : Region) (r : Replacement) :
    ((∃ tree, root.splice region r = .ok tree) ↔
      region.Addresses root ∧ ∃ body, r.fitInto root region = .ok body) ∧
    (∀ tree, root.splice region r = .ok tree →
      ∃ body, r.fitInto root region = .ok body ∧ region.Replaced root tree body) ∧
    (root.splice region r = .error .noSuchPlace → ¬ region.Addresses root) := by
  refine ⟨⟨?_, ?_⟩, fun tree hsplice => (Node.replaced_of_splice hsplice).2, ?_⟩
  · rintro ⟨tree, hsplice⟩
    obtain ⟨haddresses, body, hbody, -⟩ := Node.replaced_of_splice hsplice
    exact ⟨haddresses, body, hbody⟩
  · rintro ⟨haddresses, body, hbody⟩
    rcases Node.splice_of_addresses r haddresses with ⟨-, tree, -, hsplice⟩ | ⟨e, -, hfit, -⟩
    · exact ⟨tree, hsplice⟩
    · rw [hbody] at hfit
      cases hfit
  · intro hsplice haddresses
    rcases Node.splice_of_addresses r haddresses with ⟨-, tree, -, hok⟩ | ⟨e, he, -, herror⟩
    · rw [hok] at hsplice
      cases hsplice
    · rw [herror] at hsplice
      exact he (Except.error.inj hsplice)

/-- In a body of three statements the second one becomes two; the third one moves by one. -/
theorem Node.splice_edits_exactly_region_growing :
    ∃ root two tree, parse "function t() \x7ba(); b(); c();\x7d" = .ok root ∧
      parse "x(); y();" = .ok two ∧
      root.splice (.run [⟨.body, some 0⟩, ⟨.body, none⟩] .body 1 1)
        (.statements (two.list .body)) = .ok tree ∧
      (two.list .body).length = 2 ∧
      (Region.run [⟨.body, some 0⟩, ⟨.body, none⟩] .body 1 1).Replaced root tree
        (two.list .body) ∧
      Path.resolve? [⟨.body, some 0⟩, ⟨.body, none⟩, ⟨.body, some 3⟩] tree =
        Path.resolve? [⟨.body, some 0⟩, ⟨.body, none⟩, ⟨.body, some 2⟩] root := by
  have hrun :
      (match parse "function t() \x7ba(); b(); c();\x7d", parse "x(); y();" with
        | .ok root, .ok two =>
          (two.list .body).length == 2 &&
            match root.splice (.run [⟨.body, some 0⟩, ⟨.body, none⟩] .body 1 1)
                (.statements (two.list .body)) with
            | .ok _ => true
            | .error _ => false
        | _, _ => false) = true := by
    decide +kernel
  split at hrun
  next root two hroot htwo =>
    rw [Bool.and_eq_true, beq_iff_eq] at hrun
    obtain ⟨hlength, hsplice⟩ := hrun
    split at hsplice
    next tree htree =>
      obtain ⟨body, hbody, hreplaced⟩ :=
        (Node.splice_edits_exactly_region root _ _).2.1 tree htree
      cases hbody
      have hmisses : (Region.run [⟨.body, some 0⟩, ⟨.body, none⟩] .body 1 1).Misses
          [⟨.body, some 0⟩, ⟨.body, none⟩, ⟨.body, some 2⟩] := ⟨by decide, by decide⟩
      have hframe := hreplaced.frame _ hmisses
      rw [show (Replacement.statements (two.list .body)).toStatements = two.list .body from rfl,
        hlength] at hframe
      exact ⟨root, two, tree, hroot, htwo, htree, hlength, hreplaced, hframe⟩
    next => cases hsplice
  next => cases hrun

end Graft
