import Graft.Edit.Transform
import Graft.Proofs.DocumentOrder

/-!
# Replacing many regions in one pass

`Node.overwrite` replaces any number of regions of a tree at once, from the top.  Every region is
addressed in the tree as it was before.  Splicing changes one region after the other in a tree that
has already been changed; the two agree when the regions are spliced from the last to the first,
which is the content of `Node.editSlot?_overwrite`.
-/

namespace Graft

/-- A region and the nodes that take its place. -/
structure Edit where
  region : Region
  body : List Node

namespace Edit

/-- The node that takes the place of the whole tree. -/
def whole? (e : Edit) : Option Node :=
  match e.region with
  | .node [] => e.body.head?
  | _ => none

/-- The edit seen from the end of a step, if it lies below it. -/
def below? (step : Step) (e : Edit) : Option Edit :=
  match e.region with
  | .node (first :: path) => if first = step then some ⟨.node path, e.body⟩ else none
  | .run (first :: parent) field start length =>
    if first = step then some ⟨.run parent field start length, e.body⟩ else none
  | _ => none

/-- The length and the new nodes of a run that starts at a position of a list of the node. -/
def run? (field : Field) (position : Nat) (e : Edit) : Option (Nat × List Node) :=
  match e.region with
  | .run [] f start length =>
    if f = field ∧ start = position then some (length, e.body) else none
  | _ => none

end Edit

mutual

/-- The tree with all edited regions replaced; everything else is left as it was. -/
def Node.overwrite (edits : List Edit) : Node → Node
  | .mk kind span slots =>
    match edits.findSome? Edit.whole? with
    | some new => new
    | none => .mk kind span (overwriteSlots edits slots)
termination_by structural n => n

def Slot.overwrite (edits : List Edit) (field : Field) : Slot → Slot
  | .node n => .node (n.overwrite (edits.filterMap (Edit.below? ⟨field, none⟩)))
  | .list ns => .list (overwriteNodes edits field 0 0 ns)
  | .absent => .absent
  | .scalar value => .scalar value
termination_by structural s => s

def overwriteSlots (edits : List Edit) : List (Field × Slot) → List (Field × Slot)
  | [] => []
  | (field, slot) :: rest => (field, slot.overwrite edits field) :: overwriteSlots edits rest
termination_by structural ss => ss

/-- The items from a position on; the first `covered` of them belong to a run that has been
replaced. -/
def overwriteNodes (edits : List Edit) (field : Field) (covered position : Nat) :
    List Node → List Node
  | [] => []
  | n :: rest =>
    match covered with
    | covered + 1 => overwriteNodes edits field covered (position + 1) rest
    | 0 =>
      match edits.findSome? (Edit.run? field position) with
      | some (length, body) =>
        body ++ overwriteNodes edits field (length - 1) (position + 1) rest
      | none =>
        n.overwrite (edits.filterMap (Edit.below? ⟨field, some position⟩)) ::
          overwriteNodes edits field 0 (position + 1) rest
termination_by structural ns => ns

end

/-! ## Edits below a step -/

theorem Edit.below?_under (step : Step) (region : Region) (body : List Node) :
    Edit.below? step ⟨region.under step, body⟩ = some ⟨region, body⟩ := by
  cases region <;> simp [Edit.below?, Region.under]

theorem Edit.below?_eq_some_iff {step : Step} {e e' : Edit} :
    Edit.below? step e = some e' ↔ e.region = e'.region.under step ∧ e.body = e'.body := by
  obtain ⟨region, body⟩ := e
  obtain ⟨region', body'⟩ := e'
  constructor
  · intro hbelow
    unfold Edit.below? at hbelow
    split at hbelow
    next hregion =>
      split at hbelow
      next hfirst =>
        simp only [Option.some.injEq, Edit.mk.injEq] at hbelow hregion
        obtain ⟨rfl, rfl⟩ := hbelow
        exact ⟨by rw [hregion, hfirst]; rfl, rfl⟩
      next => contradiction
    next hregion =>
      split at hbelow
      next hfirst =>
        simp only [Option.some.injEq, Edit.mk.injEq] at hbelow hregion
        obtain ⟨rfl, rfl⟩ := hbelow
        exact ⟨by rw [hregion, hfirst]; rfl, rfl⟩
      next => contradiction
    next => contradiction
  · rintro ⟨hregion, hbody⟩
    simp only at hregion hbody
    rw [hregion, hbody]
    exact Edit.below?_under step region' body'

theorem Edit.below?_under_of_ne
    {step other : Step}
    (hne : step ≠ other)
    (region : Region) (body : List Node) :
    Edit.below? other ⟨region.under step, body⟩ = none := by
  cases region <;> simp [Edit.below?, Region.under, hne]

@[simp] theorem Edit.whole?_under (step : Step) (region : Region) (body : List Node) :
    Edit.whole? ⟨region.under step, body⟩ = none := by
  cases region <;> rfl

@[simp] theorem Edit.run?_under
    (field : Field) (position : Nat) (step : Step) (region : Region) (body : List Node) :
    Edit.run? field position ⟨region.under step, body⟩ = none := by
  cases region <;> rfl

@[simp] theorem Edit.below?_run_nil
    (step : Step) (field : Field) (start length : Nat) (body : List Node) :
    Edit.below? step ⟨.run [] field start length, body⟩ = none := rfl

theorem Edit.region_of_run?
    {field : Field} {position : Nat} {new : Nat × List Node} {e : Edit}
    (hrun : Edit.run? field position e = some new) :
    e.region = .run [] field position new.1 := by
  unfold Edit.run? at hrun
  split at hrun
  next f start length hregion =>
    split at hrun
    next hplace =>
      cases hrun
      rw [hregion, hplace.1, hplace.2]
    next => contradiction
  next => contradiction

theorem Edit.region_of_whole?
    {new : Node} {e : Edit}
    (hwhole : Edit.whole? e = some new) :
    e.region = .node [] := by
  unfold Edit.whole? at hwhole
  split at hwhole
  next hregion => exact hregion
  next => contradiction

/-! ## One pass over nodes, slots and lists -/

theorem Node.overwrite_of_whole
    {edits : List Edit} {new : Node}
    (hwhole : edits.findSome? Edit.whole? = some new)
    (n : Node) :
    n.overwrite edits = new := by
  cases n
  rw [Node.overwrite, hwhole]

theorem Node.overwrite_of_no_whole
    {edits : List Edit}
    (hwhole : edits.findSome? Edit.whole? = none)
    (n : Node) :
    n.overwrite edits = .mk n.kind n.span (overwriteSlots edits n.slots) := by
  cases n
  rw [Node.overwrite, hwhole]
  rfl

theorem overwriteSlots_eq_map (edits : List Edit) (slots : List (Field × Slot)) :
    overwriteSlots edits slots =
      slots.map fun entry => (entry.1, entry.2.overwrite edits entry.1) := by
  induction slots with
  | nil => rfl
  | cons entry rest ih => rw [overwriteSlots, ih, List.map_cons]

theorem lookup_overwriteSlots
    (edits : List Edit) (field : Field) (slots : List (Field × Slot)) :
    (overwriteSlots edits slots).lookup field =
      (slots.lookup field).map fun slot => slot.overwrite edits field := by
  induction slots with
  | nil => rfl
  | cons entry rest ih =>
      obtain ⟨other, slot⟩ := entry
      rw [overwriteSlots, List.lookup_cons, List.lookup_cons, ih]
      cases hbeq : field == other with
      | false => rfl
      | true => rw [eq_of_beq hbeq, Option.map_some]

theorem Node.slot?_overwrite
    {edits : List Edit}
    (hwhole : edits.findSome? Edit.whole? = none)
    (n : Node) (field : Field) :
    (n.overwrite edits).slot? field =
      (n.slot? field).map fun slot => slot.overwrite edits field := by
  rw [Node.overwrite_of_no_whole hwhole]
  exact lookup_overwriteSlots edits field n.slots

/-- Two lists of edits agree on everything that lies at a position of a list. -/
def AgreeAt (edits edits' : List Edit) (field : Field) (position : Nat) : Prop :=
  edits.findSome? (Edit.run? field position) = edits'.findSome? (Edit.run? field position) ∧
    edits.filterMap (Edit.below? ⟨field, some position⟩) =
      edits'.filterMap (Edit.below? ⟨field, some position⟩)

theorem overwriteNodes_congr
    {edits edits' : List Edit} {field : Field} {ns : List Node} {covered position : Nat}
    (hagree : ∀ i, position ≤ i → i < position + ns.length → AgreeAt edits edits' field i) :
    overwriteNodes edits field covered position ns =
      overwriteNodes edits' field covered position ns := by
  induction ns generalizing covered position with
  | nil => simp [overwriteNodes]
  | cons n rest ih =>
      have hrest : ∀ covered, overwriteNodes edits field covered (position + 1) rest =
          overwriteNodes edits' field covered (position + 1) rest := by
        intro covered
        refine ih fun i hfirst hlast => hagree i (by omega) ?_
        rw [List.length_cons]
        omega
      obtain ⟨hrun, hbelow⟩ := hagree position (by omega) (by simp)
      cases covered with
      | succ covered => rw [overwriteNodes, overwriteNodes, hrest]
      | zero => simp only [overwriteNodes, hrun, hbelow, hrest]

/-- Items before the first edited run are changed one by one. -/
theorem overwriteNodes_append
    {edits : List Edit} {field : Field} {front back : List Node} {position : Nat}
    (hruns : ∀ i, position ≤ i → i < position + front.length →
      edits.findSome? (Edit.run? field i) = none) :
    overwriteNodes edits field 0 position (front ++ back) =
        overwriteNodes edits field 0 position front ++
          overwriteNodes edits field 0 (position + front.length) back ∧
      (overwriteNodes edits field 0 position front).length = front.length := by
  induction front generalizing position with
  | nil => simp [overwriteNodes]
  | cons n front ih =>
      have hhere := hruns position (by omega) (by simp)
      obtain ⟨happend, hlength⟩ := @ih (position + 1) (fun i hfirst hlast =>
        hruns i (by omega) (by rw [List.length_cons]; omega))
      constructor
      · simp only [List.cons_append, overwriteNodes, hhere, happend, List.length_cons]
        rw [show position + (front.length + 1) = position + 1 + front.length by omega]
      · simp only [overwriteNodes, hhere, List.length_cons, hlength]

theorem overwriteNodes_covered
    {edits : List Edit} {field : Field}
    (covered back : List Node) (position : Nat) :
    overwriteNodes edits field covered.length position (covered ++ back) =
      overwriteNodes edits field 0 (position + covered.length) back := by
  induction covered generalizing position with
  | nil => rfl
  | cons n covered ih =>
      rw [List.length_cons, List.cons_append, overwriteNodes, ih]
      rw [show position + (covered.length + 1) = position + 1 + covered.length by omega]

@[simp] theorem Node.overwrite_nil (n : Node) : n.overwrite [] = n := by
  induction n using Node.childInduction with
  | hparent n ih =>
      have hslot : ∀ entry ∈ n.slots, entry.2.overwrite [] entry.1 = entry.2 := by
        rintro ⟨field, slot⟩ hentry
        cases slot with
        | node c => exact congrArg Slot.node (ih _ hentry c (by simp [Slot.children]))
        | list ns =>
            have hitems : ∀ c ∈ ns, c.overwrite [] = c := ih _ hentry
            have hlist : ∀ position, overwriteNodes [] field 0 position ns = ns := by
              clear hentry
              induction ns with
              | nil => simp [overwriteNodes]
              | cons c rest ihRest =>
                  intro position
                  have hrest := ihRest (fun c hc => hitems c (List.mem_cons_of_mem _ hc))
                  simp [overwriteNodes, hitems c (by simp), hrest]
            exact congrArg Slot.list (hlist 0)
        | absent => rfl
        | scalar value => rfl
      have hslots : overwriteSlots [] n.slots = n.slots := by
        rw [overwriteSlots_eq_map]
        conv_rhs => rw [← List.map_id n.slots]
        refine List.map_congr_left fun entry hentry => ?_
        rw [hslot entry hentry, id]
      rw [Node.overwrite_of_no_whole rfl, hslots]
      cases n
      rfl

/-! ## Regions that are still in place -/

/-- Replacing the second region leaves the first one where it was: it does not lie in the second
one, and not behind it in a list. -/
def Region.Clear (a b : Region) : Prop :=
  match b with
  | .node path => ∀ p ∈ a.roots, ¬ path <+: p
  | .run parent field start _ =>
    ∀ p ∈ a.roots, ∀ i rest, p = parent ++ ⟨field, some i⟩ :: rest → i < start

theorem Region.roots_under (step : Step) (region : Region) :
    (region.under step).roots = region.roots.map (step :: ·) := by
  cases region <;> simp [Region.roots, Region.under, Function.comp_def]

theorem Region.Clear.of_under
    {step : Step} {a b : Region}
    (hclear : Region.Clear (a.under step) (b.under step)) :
    Region.Clear a b := by
  cases b with
  | node path =>
      intro p hp hprefix
      refine hclear (step :: p) ?_ (List.cons_prefix_cons.mpr ⟨rfl, hprefix⟩)
      rw [Region.roots_under]
      exact List.mem_map_of_mem hp
  | run parent field start length =>
      intro p hp i rest heq
      refine hclear (step :: p) ?_ i rest (by rw [heq]; rfl)
      rw [Region.roots_under]
      exact List.mem_map_of_mem hp

section ClearEdits

variable {edits : List Edit} {region : Region} {step : Step}

theorem findSome?_whole?_of_clear
    (hroots : region.roots ≠ []) (hclear : ∀ e ∈ edits, Region.Clear region e.region) :
    edits.findSome? Edit.whole? = none := by
  rw [List.findSome?_eq_none_iff]
  intro e he
  cases hwhole : Edit.whole? e with
  | none => rfl
  | some new =>
      have hregion := hclear e he
      rw [Edit.region_of_whole? hwhole] at hregion
      obtain ⟨p, hp⟩ := List.exists_mem_of_ne_nil _ hroots
      exact absurd List.nil_prefix (hregion p hp)

theorem clear_filterMap_below? (hclear : ∀ e ∈ edits, Region.Clear (region.under step) e.region) :
    ∀ e ∈ edits.filterMap (Edit.below? step), Region.Clear region e.region := by
  intro inner hinner
  obtain ⟨e, he, hbelow⟩ := List.mem_filterMap.mp hinner
  have hregion := hclear e he
  rw [(Edit.below?_eq_some_iff.mp hbelow).1] at hregion
  exact hregion.of_under

theorem findSome?_run?_of_clear
    {i j : Nat}
    (hroots : region.roots ≠ [])
    (hindex : step.index = some i)
    (hj : j ≤ i)
    (hclear : ∀ e ∈ edits, Region.Clear (region.under step) e.region) :
    edits.findSome? (Edit.run? step.field j) = none := by
  rw [List.findSome?_eq_none_iff]
  intro e he
  cases hrun : Edit.run? step.field j e with
  | none => rfl
  | some new =>
      have hregion := hclear e he
      rw [Edit.region_of_run? hrun] at hregion
      obtain ⟨p, hp⟩ := List.exists_mem_of_ne_nil _ hroots
      have hlt : i < j := by
        refine hregion (step :: p) ?_ i p ?_
        · rw [Region.roots_under]
          exact List.mem_map_of_mem hp
        · obtain ⟨field, index⟩ := step
          simp only at hindex
          rw [hindex]
          rfl
      omega

end ClearEdits

/-! ## One more edit -/

theorem overwriteNodes_around
    {edits : List Edit} {field : Field}
    (front back : List Node) (c : Node)
    (hruns : ∀ j ≤ front.length, edits.findSome? (Edit.run? field j) = none) :
    overwriteNodes edits field 0 0 (front ++ c :: back) =
        overwriteNodes edits field 0 0 front ++
          c.overwrite (edits.filterMap (Edit.below? ⟨field, some front.length⟩)) ::
            overwriteNodes edits field 0 (front.length + 1) back ∧
      (overwriteNodes edits field 0 0 front).length = front.length := by
  obtain ⟨happend, hlength⟩ := @overwriteNodes_append edits field front (c :: back) 0
    (fun j _ hj => hruns j (by omega))
  refine ⟨?_, hlength⟩
  rw [happend, Nat.zero_add]
  simp only [overwriteNodes, hruns front.length (Nat.le_refl _)]

theorem agreeAt_cons_under
    {edits : List Edit} {field : Field} {i j : Nat}
    (hne : i ≠ j)
    (region : Region) (body : List Node) :
    AgreeAt (⟨region.under ⟨field, some i⟩, body⟩ :: edits) edits field j := by
  constructor
  · rw [List.findSome?_cons, Edit.run?_under]
  · rw [List.filterMap_cons, Edit.below?_under_of_ne (by simpa using hne)]

/-- One more edit below an item changes only that item. -/
theorem overwriteNodes_cons_under
    {edits : List Edit} {field : Field}
    (front back : List Node) (c : Node) (region : Region) (body : List Node)
    (hruns : ∀ j ≤ front.length, edits.findSome? (Edit.run? field j) = none) :
    overwriteNodes (⟨region.under ⟨field, some front.length⟩, body⟩ :: edits) field 0 0
        (front ++ c :: back) =
      overwriteNodes edits field 0 0 front ++
        c.overwrite (⟨region, body⟩ ::
            edits.filterMap (Edit.below? ⟨field, some front.length⟩)) ::
          overwriteNodes edits field 0 (front.length + 1) back := by
  generalize hnewEdits :
    (⟨region.under ⟨field, some front.length⟩, body⟩ :: edits : List Edit) = newEdits
  have hagree : ∀ j, j ≠ front.length → AgreeAt newEdits edits field j := by
    intro j hj
    rw [← hnewEdits]
    exact agreeAt_cons_under (Ne.symm hj) region body
  have hrunsNew : ∀ j ≤ front.length, newEdits.findSome? (Edit.run? field j) = none := by
    intro j hj
    rw [← hnewEdits, List.findSome?_cons, Edit.run?_under]
    exact hruns j hj
  have hbelow : newEdits.filterMap (Edit.below? ⟨field, some front.length⟩) =
      ⟨region, body⟩ :: edits.filterMap (Edit.below? ⟨field, some front.length⟩) := by
    rw [← hnewEdits, List.filterMap_cons, Edit.below?_under]
  have hfront : overwriteNodes newEdits field 0 0 front = overwriteNodes edits field 0 0 front :=
    overwriteNodes_congr fun j _ hj => hagree j (by omega)
  have hback : overwriteNodes newEdits field 0 (front.length + 1) back =
      overwriteNodes edits field 0 (front.length + 1) back :=
    overwriteNodes_congr fun j hj _ => hagree j (by omega)
  rw [(overwriteNodes_around front back c hrunsNew).1, hbelow, hfront, hback]

theorem Slot.overwrite_child
    {slot : Slot} {c : Node} {step : Step} {edits : List Edit}
    (hc : slot.child? step.index = some c)
    (hruns : ∀ i, step.index = some i → ∀ j ≤ i, edits.findSome? (Edit.run? step.field j) = none)
    (region : Region) (body : List Node) :
    (slot.overwrite edits step.field).child? step.index =
        some (c.overwrite (edits.filterMap (Edit.below? step))) ∧
      (slot.overwrite edits step.field).setChild? step.index
          (c.overwrite (⟨region, body⟩ :: edits.filterMap (Edit.below? step))) =
        some (slot.overwrite (⟨region.under step, body⟩ :: edits) step.field) := by
  obtain ⟨field, index⟩ := step
  cases slot with
  | node child =>
      cases index with
      | none =>
          cases hc
          simp only [Slot.overwrite, Slot.child?, Slot.setChild?, List.filterMap_cons,
            Edit.below?_under, and_self]
      | some i => simp [Slot.child?] at hc
  | list ns =>
      cases index with
      | none => simp [Slot.child?] at hc
      | some i =>
          obtain ⟨hi, hget⟩ := List.getElem?_eq_some_iff.mp hc
          have hsplit : ns = ns.take i ++ c :: ns.drop (i + 1) := by
            rw [← hget, List.getElem_cons_drop, List.take_append_drop]
          have hfront : (ns.take i).length = i := by
            rw [List.length_take]
            omega
          generalize ns.take i = front at hsplit hfront
          generalize ns.drop (i + 1) = back at hsplit
          subst hsplit hfront
          have hbefore : ∀ j ≤ front.length, edits.findSome? (Edit.run? field j) = none :=
            hruns front.length rfl
          obtain ⟨hold, hlength⟩ := overwriteNodes_around front back c hbefore
          have hnew := overwriteNodes_cons_under front back c region body hbefore
          simp only [Slot.overwrite, Slot.child?, Slot.setChild?, hold, hnew]
          constructor
          · rw [List.getElem?_append_right (by omega), hlength, Nat.sub_self,
              List.getElem?_cons_zero]
          · rw [if_pos (by simp [hlength]), List.set_append_right _ _ (by omega), hlength,
              Nat.sub_self, List.set_cons_zero]
  | absent => simp [Slot.child?] at hc
  | scalar value => simp [Slot.child?] at hc

/-- One more edit of a run puts its nodes in the place of that run and changes nothing else. -/
theorem overwriteNodes_cons_run
    {edits : List Edit} {field : Field}
    (front middle back body : List Node)
    (hlength : 0 < middle.length)
    (hruns : ∀ j < front.length, edits.findSome? (Edit.run? field j) = none) :
    overwriteNodes (⟨.run [] field front.length middle.length, body⟩ :: edits) field 0 0
        (front ++ (middle ++ back)) =
      overwriteNodes edits field 0 0 front ++
        (body ++ overwriteNodes edits field 0 (front.length + middle.length) back) := by
  generalize hnewEdits :
    (⟨.run [] field front.length middle.length, body⟩ :: edits : List Edit) = newEdits
  -- the new edit is seen at the start of the run only
  have hagree : ∀ j, j ≠ front.length → AgreeAt newEdits edits field j := by
    intro j hj
    rw [← hnewEdits]
    constructor
    · rw [List.findSome?_cons]
      simp [Edit.run?, Ne.symm hj]
    · rw [List.filterMap_cons, Edit.below?_run_nil]
  have hstart : newEdits.findSome? (Edit.run? field front.length) = some (middle.length, body) := by
    rw [← hnewEdits]
    simp [Edit.run?]
  have hfront : overwriteNodes newEdits field 0 0 front = overwriteNodes edits field 0 0 front :=
    overwriteNodes_congr fun j _ hj => hagree j (by omega)
  have hrunsNew : ∀ j, 0 ≤ j → j < 0 + front.length →
      newEdits.findSome? (Edit.run? field j) = none := by
    intro j _ hj
    rw [(hagree j (by omega)).1]
    exact hruns j (by omega)
  rw [(overwriteNodes_append hrunsNew).1, hfront, Nat.zero_add]
  cases middle with
  | nil => simp at hlength
  | cons n middle =>
      rw [List.cons_append]
      simp only [overwriteNodes, hstart, List.length_cons, Nat.add_sub_cancel]
      rw [overwriteNodes_covered,
        show front.length + (middle.length + 1) = front.length + 1 + middle.length by omega,
        overwriteNodes_congr fun j hj _ => hagree j (by omega)]

theorem Slot.overwrite_run
    {ns : List Node} {field : Field} {start length : Nat} {edits : List Edit}
    (hlength : 0 < length)
    (hbound : start + length ≤ ns.length)
    (hruns : ∀ j < start + length, edits.findSome? (Edit.run? field j) = none)
    (body : List Node) :
    ((Slot.list ns).overwrite edits field).setRun? start length body =
      some ((Slot.list ns).overwrite (⟨.run [] field start length, body⟩ :: edits) field) := by
  have hsplit : ns = ns.take start ++
      ((ns.drop start).take length ++ (ns.drop start).drop length) := by
    rw [List.take_append_drop, List.take_append_drop]
  have hfrontLength : (ns.take start).length = start := by
    rw [List.length_take]
    omega
  have hmiddleLength : ((ns.drop start).take length).length = length := by
    rw [List.length_take, List.length_drop]
    omega
  generalize ns.take start = front at hsplit hfrontLength
  generalize (ns.drop start).take length = middle at hsplit hmiddleLength
  generalize (ns.drop start).drop length = back at hsplit
  subst hsplit hfrontLength hmiddleLength
  obtain ⟨hfront, hfrontLength⟩ := @overwriteNodes_append edits field front (middle ++ back) 0
    (fun j _ hj => hruns j (by omega))
  obtain ⟨hmiddle, hmiddleLength⟩ := @overwriteNodes_append edits field middle back
    (0 + front.length) (fun j _ hj => hruns j (by omega))
  have hnew := overwriteNodes_cons_run front middle back body hlength
    (fun j hj => hruns j (by omega))
  rw [Nat.zero_add] at hfront hmiddle hmiddleLength
  simp only [Slot.overwrite, Slot.setRun?, hfront, hmiddle, hnew]
  generalize overwriteNodes edits field 0 0 front = newFront at hfrontLength
  generalize overwriteNodes edits field 0 front.length middle = newMiddle at hmiddleLength
  rw [if_pos (by simp only [List.length_append]; omega), ← hfrontLength, ← hmiddleLength,
    List.take_left, ← List.append_assoc newFront, ← List.length_append, List.drop_left,
    List.append_assoc]

theorem setSlot_overwriteSlots
    {edits edits' : List Edit} {field : Field} {slot : Slot} {slots : List (Field × Slot)}
    (hdistinct : (slots.map Prod.fst).Nodup)
    (hslot : (field, slot) ∈ slots)
    (hothers : ∀ other, other ≠ field → ∀ slot : Slot,
      slot.overwrite edits' other = slot.overwrite edits other) :
    Node.setSlot field (slot.overwrite edits' field) (overwriteSlots edits slots) =
      overwriteSlots edits' slots := by
  induction slots with
  | nil => simp at hslot
  | cons entry rest ih =>
      obtain ⟨other, found⟩ := entry
      rw [List.map_cons, List.nodup_cons] at hdistinct
      rw [overwriteSlots, overwriteSlots, Node.setSlot]
      rcases List.mem_cons.mp hslot with heq | hrest
      · cases heq
        rw [if_pos rfl, overwriteSlots_eq_map, overwriteSlots_eq_map]
        congr 1
        refine List.map_congr_left fun later hlater => ?_
        have hne : later.1 ≠ field := by
          intro heq
          exact hdistinct.1 (List.mem_map.mpr ⟨later, hlater, heq⟩)
        rw [hothers later.1 hne]
      · have hne : other ≠ field := by
          intro heq
          exact hdistinct.1 (List.mem_map.mpr ⟨_, hrest, heq.symm⟩)
        rw [if_neg hne, hothers other hne, ih hdistinct.2 hrest]

/-- A slot sees only the edits of its own field. -/
theorem Slot.overwrite_congr
    {edits edits' : List Edit} {field : Field}
    (slot : Slot)
    (hsingle : edits.filterMap (Edit.below? ⟨field, none⟩) =
      edits'.filterMap (Edit.below? ⟨field, none⟩))
    (hitems : ∀ i, AgreeAt edits edits' field i) :
    slot.overwrite edits field = slot.overwrite edits' field := by
  cases slot with
  | node n => rw [Slot.overwrite, Slot.overwrite, hsingle]
  | list ns => rw [Slot.overwrite, Slot.overwrite, overwriteNodes_congr fun i _ _ => hitems i]
  | absent => simp [Slot.overwrite]
  | scalar value => simp [Slot.overwrite]

/-- The first step of a region, or the field of a run right below the node. -/
def Region.topField? : Region → Option Field
  | node path => path.head?.map Step.field
  | run parent field _ _ => (parent.head?.map Step.field).or (some field)

theorem Slot.overwrite_cons_of_other_field
    {e : Edit} {field other : Field}
    (hfield : e.region.topField? = some field) (hne : other ≠ field)
    (edits : List Edit) (slot : Slot) :
    slot.overwrite (e :: edits) other = slot.overwrite edits other := by
  have hbelow : ∀ index, Edit.below? ⟨other, index⟩ e = none := by
    intro index
    cases hbelow : Edit.below? ⟨other, index⟩ e with
    | none => rfl
    | some inner =>
        rw [(Edit.below?_eq_some_iff.mp hbelow).1] at hfield
        cases hregion : inner.region <;>
          simp [hregion, Region.under, Region.topField?] at hfield <;> exact absurd hfield hne
  have hrun : ∀ i, Edit.run? other i e = none := by
    intro i
    cases hrun : Edit.run? other i e with
    | none => rfl
    | some new =>
        rw [Edit.region_of_run? hrun] at hfield
        simp [Region.topField?] at hfield
        exact absurd hfield hne
  refine Slot.overwrite_congr slot ?_ fun i => ⟨?_, ?_⟩
  · rw [List.filterMap_cons, hbelow]
  · rw [List.findSome?_cons, hrun]
  · rw [List.filterMap_cons, hbelow]

/-- Setting the changed slot of a node that was passed over carries out one more edit. -/
theorem Node.set_overwrite
    {n : Node}
    (hdistinct : n.fields.Nodup)
    {edits : List Edit} {e : Edit} {field : Field} {slot : Slot}
    (hslot : n.slot? field = some slot)
    (hfield : e.region.topField? = some field)
    (hwhole : edits.findSome? Edit.whole? = none) :
    (n.overwrite edits).set field (slot.overwrite (e :: edits) field) =
      n.overwrite (e :: edits) := by
  have hwholeNew : (e :: edits).findSome? Edit.whole? = none := by
    rw [List.findSome?_cons]
    cases hhere : Edit.whole? e with
    | none => exact hwhole
    | some new =>
        rw [Edit.region_of_whole? hhere] at hfield
        simp [Region.topField?] at hfield
  rw [Node.overwrite_of_no_whole hwhole, Node.overwrite_of_no_whole hwholeNew, Node.set]
  simp only [Node.kind_mk, Node.span_mk, Node.slots_mk]
  rw [setSlot_overwriteSlots hdistinct (Node.mem_slots_of_slot? hslot)
    fun other hne slot => Slot.overwrite_cons_of_other_field hfield hne edits slot]

/-! ## Splicing into a tree that was passed over -/

def Region.underPath (path : Path) (region : Region) : Region := path.foldr Region.under region

@[simp] theorem Region.underPath_cons (step : Step) (rest : Path) (region : Region) :
    region.underPath (step :: rest) = (region.underPath rest).under step := rfl

theorem Region.underPath_node (path inner : Path) :
    (Region.node inner).underPath path = .node (path ++ inner) := by
  induction path with
  | nil => rfl
  | cons step rest ih =>
      rw [Region.underPath_cons, ih]
      rfl

theorem Region.underPath_run (path parent : Path) (field : Field) (start length : Nat) :
    (Region.run parent field start length).underPath path =
      .run (path ++ parent) field start length := by
  induction path with
  | nil => rfl
  | cons step rest ih =>
      rw [Region.underPath_cons, ih]
      rfl

theorem Region.roots_underPath_ne_nil
    {region : Region}
    (hroots : region.roots ≠ [])
    (path : Path) :
    (region.underPath path).roots ≠ [] := by
  induction path with
  | nil => exact hroots
  | cons step rest ih =>
      rw [Region.underPath_cons, Region.roots_under]
      simpa using ih

theorem Region.topField?_under (step : Step) (region : Region) :
    (region.under step).topField? = some step.field := by
  cases region <;> rfl

/-- A path into a tree still leads to the same node after edits that are clear of it, up to the
edits below that node. -/
theorem Path.resolve?_overwrite
    (region : Region)
    {path : Path} {n target : Node} {edits : List Edit}
    (hpath : Path.resolve? path n = some target)
    (hroots : region.roots ≠ [])
    (hclear : ∀ e ∈ edits, Region.Clear (region.underPath path) e.region) :
    ∃ inner, Path.resolve? path (n.overwrite edits) = some (target.overwrite inner) ∧
      inner.findSome? Edit.whole? = none := by
  induction path generalizing n edits with
  | nil =>
      cases hpath
      exact ⟨edits, rfl, findSome?_whole?_of_clear hroots hclear⟩
  | cons step rest ih =>
      have hroots' := Region.roots_underPath_ne_nil hroots rest
      rw [Path.resolve?_cons] at hpath
      obtain ⟨c, hstep, hrest⟩ := Option.bind_eq_some_iff.mp hpath
      obtain ⟨slot, hslot, hc⟩ := Node.childAt?_eq_some_iff.mp hstep
      have hwhole := findSome?_whole?_of_clear
        (Region.roots_underPath_ne_nil hroots (step :: rest)) hclear
      obtain ⟨inner, hinner, hnone⟩ := ih hrest (clear_filterMap_below? hclear)
      refine ⟨inner, ?_, hnone⟩
      have hslotNew : (n.overwrite edits).slot? step.field =
          some (slot.overwrite edits step.field) := by
        rw [Node.slot?_overwrite hwhole, hslot, Option.map_some]
      have hchild := (Slot.overwrite_child hc
        (fun i hi j hj => findSome?_run?_of_clear hroots' hi hj hclear) region []).1
      rw [Path.resolve?_cons, Node.childAt?_eq_some_iff.mpr ⟨_, hslotNew, hchild⟩]
      exact hinner

/-- Editing a slot after other edits is the same as one more edit, if the slot itself behaves
so. -/
theorem Node.editSlot?_overwrite
    {path : Path} {n target : Node} {field : Field} {slot : Slot} {region : Region}
    {body : List Node} {edit : Slot → Option Slot} {edits : List Edit}
    (hn : n.DistinctFields)
    (hpath : Path.resolve? path n = some target)
    (hslot : target.slot? field = some slot)
    (hroots : region.roots ≠ [])
    (hfield : region.topField? = some field)
    (hclear : ∀ e ∈ edits, Region.Clear (region.underPath path) e.region)
    (hedit : ∀ inner : List Edit, (∀ e ∈ inner, Region.Clear region e.region) →
      edit (slot.overwrite inner field) = some (slot.overwrite (⟨region, body⟩ :: inner) field)) :
    (n.overwrite edits).editSlot? field edit path =
      some (n.overwrite (⟨region.underPath path, body⟩ :: edits)) := by
  induction path generalizing n edits with
  | nil =>
      cases hpath
      have hwhole := findSome?_whole?_of_clear hroots hclear
      have hset : (target.overwrite edits).set field
          (slot.overwrite (⟨region, body⟩ :: edits) field) =
            target.overwrite (⟨region, body⟩ :: edits) :=
        Node.set_overwrite hn.here hslot hfield hwhole
      simp only [Node.editSlot?, Node.slot?_overwrite hwhole, hslot, Option.map_some,
        Option.bind_eq_bind, Option.bind_some]
      rw [hedit edits hclear, Option.bind_some, hset]
      rfl
  | cons step rest ih =>
      have hroots' := Region.roots_underPath_ne_nil hroots rest
      have hwhole := findSome?_whole?_of_clear
        (Region.roots_underPath_ne_nil hroots (step :: rest)) hclear
      rw [Path.resolve?_cons] at hpath
      obtain ⟨c, hstep, hrest⟩ := Option.bind_eq_some_iff.mp hpath
      obtain ⟨outer, houter, hc⟩ := Node.childAt?_eq_some_iff.mp hstep
      -- below the step, the edits are seen from the child, and so is the new one
      obtain ⟨hchild, hsetChild⟩ := Slot.overwrite_child hc
        (fun i hi j hj => findSome?_run?_of_clear hroots' hi hj hclear)
        (region.underPath rest) body
      have hinner := ih (hn.childAt hstep) hrest (clear_filterMap_below? hclear)
      have hset : (n.overwrite edits).set step.field
          (outer.overwrite (⟨region.underPath (step :: rest), body⟩ :: edits) step.field) =
            n.overwrite (⟨region.underPath (step :: rest), body⟩ :: edits) :=
        Node.set_overwrite hn.here houter (Region.topField?_under _ _) hwhole
      simp only [Node.editSlot?, Node.slot?_overwrite hwhole, houter, Option.map_some,
        Option.bind_eq_bind, Option.bind_some, hchild, hinner, hsetChild]
      rw [← Region.underPath_cons, hset]
      rfl

end Graft
