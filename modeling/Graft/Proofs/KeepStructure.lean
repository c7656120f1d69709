import Graft.Proofs.Overwrite
import Graft.Proofs.SameStructure

/-!
# Edits that keep the structure

An edit that puts nodes in the place of nodes of the same structure changes nothing that the
comparison of trees sees.  One pass with any number of such edits gives a tree of the same
structure; the regions need not be disjoint.
-/

namespace Graft

/-- The region exists in the tree, and the new nodes have the structure of those that stand
there. -/
def Edit.KeepsStructure (root : Node) (e : Edit) : Prop :=
  match e.region with
  | .node path => ∃ n, Path.resolve? path root = some n ∧ sameSequence e.body [n] = true
  | .run parent field start length => 0 < length ∧
    ∃ n items, Path.resolve? parent root = some n ∧ n.slot? field = some (.list items) ∧
      sameSequence e.body ((items.drop start).take length) = true

theorem Edit.KeepsStructure.below
    {n c : Node} {step : Step} {e e' : Edit}
    (hkeeps : e.KeepsStructure n)
    (hstep : n.childAt? step = some c)
    (hbelow : Edit.below? step e = some e') :
    e'.KeepsStructure c := by
  obtain ⟨region, body⟩ := e
  obtain ⟨region', body'⟩ := e'
  obtain ⟨hregion, hbody⟩ := Edit.below?_eq_some_iff.mp hbelow
  simp only at hregion hbody
  subst hregion
  subst hbody
  have hresolve : ∀ path, Path.resolve? (step :: path) n = Path.resolve? path c := by
    intro path
    rw [Path.resolve?_cons, hstep, Option.bind_some]
  cases region' with
  | node path =>
      obtain ⟨found, hfound, hsame⟩ := hkeeps
      rw [hresolve] at hfound
      exact ⟨found, hfound, hsame⟩
  | run parent field start length =>
      obtain ⟨hlength, found, items, hfound, hitems⟩ := hkeeps
      rw [hresolve] at hfound
      exact ⟨hlength, found, items, hfound, hitems⟩

theorem Edit.KeepsStructure.sameStructure_of_whole?
    {root new : Node} {e : Edit}
    (hkeeps : e.KeepsStructure root) (hwhole : Edit.whole? e = some new) :
    new.sameStructure root = true := by
  obtain ⟨region, body⟩ := e
  cases Edit.region_of_whole? hwhole
  obtain ⟨n, hn, hsame⟩ := hkeeps
  cases hn
  rw [sameSequence_iff] at hsame
  cases hsame with
  | cons hfirst _ =>
      cases hwhole
      exact hfirst

theorem Edit.KeepsStructure.of_run?
    {n : Node} {field : Field} {position : Nat} {items : List Node} {new : Nat × List Node}
    {e : Edit}
    (hkeeps : e.KeepsStructure n)
    (hslot : n.slot? field = some (.list items))
    (hrun : Edit.run? field position e = some new) :
    0 < new.1 ∧ sameSequence new.2 ((items.drop position).take new.1) = true := by
  obtain ⟨region, body⟩ := e
  obtain ⟨length, body'⟩ := new
  cases Edit.region_of_run? hrun
  obtain ⟨hlength, found, items', hfound, hitems, hsame⟩ := hkeeps
  cases hfound
  cases hslot.symm.trans hitems
  have hbody : body = body' := by
    simpa [Edit.run?] using hrun
  rw [← hbody]
  exact ⟨hlength, hsame⟩

theorem keepsStructure_filterMap_below?
    {edits : List Edit} {n c : Node} {step : Step}
    (hkeeps : ∀ e ∈ edits, e.KeepsStructure n) (hstep : n.childAt? step = some c) :
    ∀ e ∈ edits.filterMap (Edit.below? step), e.KeepsStructure c := by
  intro e he
  obtain ⟨outer, houter, hbelow⟩ := List.mem_filterMap.mp he
  exact (hkeeps outer houter).below hstep hbelow

/-- What is left of a list from a position on keeps its structure; the items that belong to a run
that has been replaced are left out on both sides. -/
theorem sameSequence_overwriteNodes
    {edits : List Edit} {n : Node} {field : Field} {items ns : List Node} {covered position : Nat}
    (hkeeps : ∀ e ∈ edits, e.KeepsStructure n)
    (hslot : n.slot? field = some (.list items))
    (ih : ∀ c ∈ items, ∀ inner : List Edit, (∀ e ∈ inner, e.KeepsStructure c) →
      (c.overwrite inner).sameStructure c = true)
    (hns : items.drop position = ns) :
    sameSequence (overwriteNodes edits field covered position ns) (ns.drop covered) = true := by
  -- `ns` is always the end of the whole list, because the edits address positions in that list
  induction ns generalizing covered position with
  | nil => simp [overwriteNodes, sameSequence]
  | cons c rest ihrest =>
      have hrest : items.drop (position + 1) = rest := by
        rw [← List.drop_drop, hns, List.drop_one, List.tail_cons]
      cases covered with
      | succ covered =>
          rw [overwriteNodes, List.drop_succ_cons]
          exact ihrest hrest
      | zero =>
          rw [overwriteNodes, List.drop_zero]
          cases hrun : edits.findSome? (Edit.run? field position) with
          | some new =>
              obtain ⟨length, body⟩ := new
              obtain ⟨e, he, hnew⟩ := List.exists_of_findSome?_eq_some hrun
              obtain ⟨hlength, hbody⟩ := (hkeeps e he).of_run? hslot hnew
              simp only [hns] at hlength hbody ⊢
              have hback : (c :: rest).drop length = rest.drop (length - 1) :=
                List.drop_cons hlength
              have hsplit : c :: rest = (c :: rest).take length ++ rest.drop (length - 1) := by
                rw [← hback, List.take_append_drop]
              have hothers := @ihrest (length - 1) _ hrest
              rw [sameSequence_iff] at hbody hothers ⊢
              rw [hsplit]
              exact List.rel_append hbody hothers
          | none =>
              have hat : items[position]? = some c := by
                rw [← List.head?_drop, hns, List.head?_cons]
              have hstep : n.childAt? ⟨field, some position⟩ = some c :=
                Node.childAt?_eq_some_iff.mpr ⟨.list items, hslot, hat⟩
              have hfirst := ih c (List.mem_of_getElem? hat) _
                (keepsStructure_filterMap_below? hkeeps hstep)
              have hothers := @ihrest 0 _ hrest
              rw [List.drop_zero] at hothers
              simp only [sameSequence, hfirst, hothers, Bool.and_true]

theorem Slot.sameStructure_overwrite
    {edits : List Edit} {n : Node} {field : Field} {slot : Slot}
    (hkeeps : ∀ e ∈ edits, e.KeepsStructure n)
    (hslot : n.slot? field = some slot)
    (hscalar : ∀ s, slot = .scalar s → s.same s = true)
    (ih : ∀ c ∈ slot.children, ∀ inner : List Edit, (∀ e ∈ inner, e.KeepsStructure c) →
      (c.overwrite inner).sameStructure c = true) :
    (slot.overwrite edits field).sameStructure slot = true := by
  cases slot with
  | node c =>
      have hstep : n.childAt? ⟨field, none⟩ = some c :=
        Node.childAt?_eq_some_iff.mpr ⟨.node c, hslot, rfl⟩
      exact ih c (by simp [Slot.children]) _ (keepsStructure_filterMap_below? hkeeps hstep)
  | list items => exact sameSequence_overwriteNodes hkeeps hslot ih List.drop_zero
  | absent => rfl
  | scalar s => exact hscalar s rfl

/-- One pass with edits that keep the structure gives a tree of the same structure. -/
theorem Node.sameStructure_overwrite
    {valueOf : String → Option Binary64} {root : Node} {edits : List Edit}
    (hroot : root.Exact valueOf) (hkeeps : ∀ e ∈ edits, e.KeepsStructure root) :
    (root.overwrite edits).sameStructure root = true := by
  induction root using Node.childInduction generalizing edits with
  | hparent n ih =>
      cases hwhole : edits.findSome? Edit.whole? with
      | some new =>
          obtain ⟨e, he, hnew⟩ := List.exists_of_findSome?_eq_some hwhole
          rw [Node.overwrite_of_whole hwhole]
          exact (hkeeps e he).sameStructure_of_whole? hnew
      | none =>
          rw [Node.overwrite_of_no_whole hwhole, overwriteSlots_eq_map]
          refine Node.sameStructure_iff.mpr ⟨rfl, by simp, ?_⟩
          intro entry hentry
          obtain ⟨⟨field, slot⟩, hslot, rfl⟩ := List.mem_map.mp hentry
          have hpartner : n.slot? field = some slot :=
            (Node.slot?_eq_some_iff hroot.here.distinct).mpr hslot
          refine ⟨slot, hpartner, Slot.sameStructure_overwrite hkeeps hpartner ?_ ?_⟩
          · rintro s rfl
            exact Scalar.same_self (hroot.here.numbers _ hslot)
          · intro c hc inner hinner
            exact ih _ hslot c hc (hroot.child hslot hc) hinner

end Graft
