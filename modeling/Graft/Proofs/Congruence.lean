import Graft.Proofs.PlacedProgram
import Graft.Proofs.SameStructure
import Graft.Proofs.SpliceFrame
import Graft.Proofs.Unification

/-!
# Replacing parts by parts of the same structure

Having the same structure is compatible with building trees: a tree in which a child, at any depth,
is replaced by one of the same structure has the same structure as before.  The argument goes up
the path from the replaced child.  At each node one slot changes and its partner is the new slot;
every other slot is its own partner, for which the tree has to be one that is like itself.
-/

namespace Graft

section Replacement

variable {valueOf : String → Option Binary64}

theorem sameSequence_set
    {ns : List Node}
    (hns : ∀ n ∈ ns, n.sameStructure n = true)
    {i : Nat} {old new : Node}
    (hold : ns[i]? = some old) (hsame : old.sameStructure new = true) :
    sameSequence ns (ns.set i new) = true := by
  rw [sameSequence_iff, List.forall₂_iff_get]
  refine ⟨(List.length_set ..).symm, fun j hj hj' => ?_⟩
  simp only [List.get_eq_getElem, List.getElem_set]
  split
  · next heq =>
      subst heq
      rw [List.getElem?_eq_getElem hj] at hold
      cases hold
      exact hsame
  · exact hns _ (List.getElem_mem hj)

theorem Slot.sameStructure_setChild?
    {slot slot' : Slot} {index : Option Nat} {old new : Node}
    (hchildren : ∀ c ∈ slot.children, c.sameStructure c = true)
    (hold : slot.child? index = some old)
    (hsame : old.sameStructure new = true)
    (hset : slot.setChild? index new = some slot') :
    slot.sameStructure slot' = true := by
  cases slot <;> cases index <;> simp only [Slot.setChild?, reduceCtorEq] at hset
  case node.none n =>
    cases hset
    cases hold
    exact hsame
  case list.some ns i =>
    split_ifs at hset
    cases hset
    exact sameSequence_set hchildren hold hsame

/-- One slot has the new one for its partner, and each of the others itself. -/
theorem Node.sameStructure_set
    {n : Node}
    (hn : n.Exact valueOf)
    {field : Field} {slot slot' : Slot}
    (hslot : n.slot? field = some slot) (hsame : slot.sameStructure slot' = true) :
    n.sameStructure (n.set field slot') = true := by
  have hfields : (n.set field slot').fields = n.fields :=
    fields_setSlot (List.mem_map.mpr ⟨_, Node.mem_slots_of_slot? hslot, rfl⟩) slot'
  have hlength : (n.set field slot').slots.length = n.slots.length := by
    simpa [Node.fields] using congrArg List.length hfields
  refine Node.sameStructure_iff.mpr ⟨rfl, hlength.symm, ?_⟩
  rintro ⟨other, found⟩ hentry
  have hfound : n.slot? other = some found :=
    (Node.slot?_eq_some_iff hn.here.distinct).mpr hentry
  rw [Node.slot?_set]
  by_cases hother : other = field
  · subst hother
    cases hslot.symm.trans hfound
    exact ⟨slot', if_pos rfl, hsame⟩
  · refine ⟨found, by rw [if_neg hother, hfound], Slot.sameStructure_self ?_ ?_⟩
    · rintro s rfl
      exact Scalar.same_self (hn.here.numbers _ hentry)
    · intro c hc
      exact Node.sameStructure_self (hn.child hentry hc)

theorem Node.Exact.set
    {n : Node}
    (hn : n.Exact valueOf)
    {field : Field} {slot slot' : Slot}
    (hslot : n.slot? field = some slot)
    (hscalar : slot'.ScalarExact valueOf)
    (hchildren : ∀ c ∈ slot'.children, c.Exact valueOf) :
    (n.set field slot').Exact valueOf := by
  have hfields : (n.set field slot').fields = n.fields :=
    fields_setSlot (List.mem_map.mpr ⟨_, Node.mem_slots_of_slot? hslot, rfl⟩) slot'
  refine Node.all_iff.mpr ⟨⟨hfields ▸ hn.here.distinct, fun entry hentry => ?_⟩, ?_⟩
  · rcases mem_setSlot hentry with rfl | hold
    · exact hscalar
    · exact hn.here.numbers entry hold
  · intro entry hentry c hc
    rcases mem_setSlot hentry with rfl | hold
    · exact hchildren c hc
    · exact hn.child hold hc

theorem Slot.scalarExact_of_setChild?
    {slot slot' : Slot} {index : Option Nat} {new : Node}
    (hset : slot.setChild? index new = some slot') :
    slot'.ScalarExact valueOf := by
  cases slot <;> cases index <;> simp only [Slot.setChild?, reduceCtorEq] at hset
  case node.none n =>
    cases hset
    trivial
  case list.some ns i =>
    split_ifs at hset
    cases hset
    trivial

/-- A child of a node is replaced. -/
theorem Node.Exact.setChild?
    {n : Node}
    (hn : n.Exact valueOf)
    {field : Field} {index : Option Nat} {slot slot' : Slot} {old new : Node}
    (hnew : new.Exact valueOf)
    (hslot : n.slot? field = some slot)
    (hold : slot.child? index = some old)
    (hsame : old.sameStructure new = true)
    (hset : slot.setChild? index new = some slot') :
    n.sameStructure (n.set field slot') = true ∧ (n.set field slot').Exact valueOf := by
  have hchildren : ∀ c ∈ slot.children, c.Exact valueOf := fun c hc =>
    hn.child (Node.mem_slots_of_slot? hslot) hc
  constructor
  · refine Node.sameStructure_set hn hslot (Slot.sameStructure_setChild? ?_ hold hsame hset)
    exact fun c hc => Node.sameStructure_self (hchildren c hc)
  · refine hn.set hslot (Slot.scalarExact_of_setChild? hset) fun c hc => ?_
    rcases (Slot.setChild?_eq_some hset).2 c hc with rfl | hmem
    · exact hnew
    · exact hchildren c hmem

/-- The induction goes down the path to the replaced child; on the way up each node is rebuilt with
one child replaced. -/
theorem Node.Exact.replace
    {root old new : Node}
    (hroot : root.Exact valueOf) (hnew : new.Exact valueOf)
    {front : Path} {last : Step}
    (hold : Path.resolve? (front ++ [last]) root = some old)
    (hsame : old.sameStructure new = true) :
    ∃ tree, root.editSlot? last.field (fun slot => slot.setChild? last.index new) front =
        some tree ∧
      root.sameStructure tree = true ∧ tree.Exact valueOf := by
  induction front generalizing root with
  | nil =>
      rw [List.nil_append, Path.resolve?_cons] at hold
      obtain ⟨child, hchild, hrest⟩ := Option.bind_eq_some_iff.mp hold
      cases hrest
      obtain ⟨slot, hslot, hindex⟩ := Node.childAt?_eq_some_iff.mp hchild
      obtain ⟨slot', hset⟩ := Slot.exists_setChild? hindex new
      exact ⟨root.set last.field slot', by simp [Node.editSlot?, hslot, hset],
        hroot.setChild? hnew hslot hindex hsame hset⟩
  | cons step front ih =>
      rw [List.cons_append, Path.resolve?_cons] at hold
      obtain ⟨child, hchild, hrest⟩ := Option.bind_eq_some_iff.mp hold
      obtain ⟨child', hedit, hsame', hexact⟩ := ih (hroot.childAt hchild) hrest
      obtain ⟨slot, hslot, hindex⟩ := Node.childAt?_eq_some_iff.mp hchild
      obtain ⟨slot', hset⟩ := Slot.exists_setChild? hindex child'
      exact ⟨root.set step.field slot', by simp [Node.editSlot?, hslot, hindex, hedit, hset],
        hroot.setChild? hexact hslot hindex hsame' hset⟩

/-- The new node stands at the place of the old one. -/
theorem Node.resolve?_of_setChild?
    {root tree new : Node} {front : Path} {last : Step}
    (hedit : root.editSlot? last.field (fun slot => slot.setChild? last.index new) front =
      some tree) :
    Path.resolve? (front ++ [last]) tree = some new := by
  obtain ⟨target, slot, slot', -, hslot, hset, htree⟩ := Node.resolve?_holder_editSlot? hedit
  rw [Path.resolve?_append, htree, Option.bind_some, Path.resolve?_cons,
    Node.childAt?_set_setChild? hslot hset, if_pos rfl]
  rfl

/-! ## Sequences -/

theorem sameSequence_self {ns : List Node} (hns : ∀ n ∈ ns, n.Exact valueOf) :
    sameSequence ns ns = true :=
  sameSequence_iff.mpr (List.forall₂_same.mpr fun n hn => Node.sameStructure_self (hns n hn))

theorem sameSequence_symm
    {as bs : List Node}
    (has : ∀ a ∈ as, a.Exact valueOf)
    (hbs : ∀ b ∈ bs, b.Exact valueOf)
    (hab : sameSequence as bs = true) :
    sameSequence bs as = true := by
  refine sameSequence_euclid (fun a ha b hb c hc => ?_) hab (sameSequence_self has)
  exact Node.sameStructure_euclid (has a ha) (hbs b hb) (has c hc)

theorem sameSequence_trans
    {as bs cs : List Node}
    (has : ∀ a ∈ as, a.Exact valueOf)
    (hbs : ∀ b ∈ bs, b.Exact valueOf)
    (hcs : ∀ c ∈ cs, c.Exact valueOf)
    (hab : sameSequence as bs = true)
    (hbc : sameSequence bs cs = true) :
    sameSequence as cs = true := by
  refine sameSequence_euclid (fun b hb a ha c hc => ?_) (sameSequence_symm has hbs hab) hbc
  exact Node.sameStructure_euclid (hbs b hb) (has a ha) (hcs c hc)

end Replacement

theorem Node.Exact.of_all
    {valueOf : String → Option Binary64} {root : Node}
    (hfields : root.All fun n => n.fields.Nodup) (hnumbers : root.All (Node.NumbersExact valueOf)) :
    root.Exact valueOf :=
  (hfields.and hnumbers).imp fun _ hn => ⟨hn.1, hn.2⟩

theorem Node.Read.exact {root : Node} (hroot : root.Read) : root.Exact Numeral.value? :=
  hroot.imp fun _ hn => ⟨hn.fields.nodup, hn.numbers⟩

/-- On the trees that are compared faithfully, and on their sequences, having the same structure is
an equivalence, and it is kept when a child at any place of a tree, or an element of a sequence, is
replaced by one of the same structure; the new tree is compared faithfully again.  The trees of
programs are of this kind. -/
theorem Node.sameStructure_equivalence_congruence (valueOf : String → Option Binary64) :
    Equivalence (fun a b : { n : Node // n.Exact valueOf } => a.1.sameStructure b.1 = true) ∧
    Equivalence (fun as bs : { ns : List Node // ∀ n ∈ ns, n.Exact valueOf } =>
      sameSequence as.1 bs.1 = true) ∧
    (∀ root old new : Node, root.Exact valueOf → new.Exact valueOf → ∀ (front : Path) (last : Step),
      Path.resolve? (front ++ [last]) root = some old → old.sameStructure new = true →
        ∃ tree, root.editSlot? last.field (fun slot => slot.setChild? last.index new) front =
            some tree ∧ Path.resolve? (front ++ [last]) tree = some new ∧
          root.sameStructure tree = true ∧ tree.Exact valueOf) ∧
    (∀ (ns : List Node) (i : Nat) (old new : Node), (∀ n ∈ ns, n.Exact valueOf) →
      ns[i]? = some old → old.sameStructure new = true → sameSequence ns (ns.set i new) = true) ∧
    ∀ (source : String) (root : Node), parse source = .ok root → root.Exact Numeral.value? := by
  refine ⟨⟨fun a => ?_, ?_, ?_⟩, ⟨fun as => ?_, ?_, ?_⟩, ?_, ?_, fun source root hparse => ?_⟩
  · exact Node.sameStructure_self a.2
  · exact fun {a b} hab => Node.sameStructure_symm a.2 b.2 hab
  · exact fun {a b c} hab hbc => Node.sameStructure_trans a.2 b.2 c.2 hab hbc
  · exact sameSequence_self as.2
  · exact fun {as bs} hab => sameSequence_symm as.2 bs.2 hab
  · exact fun {as bs cs} hab hbc => sameSequence_trans as.2 bs.2 cs.2 hab hbc
  · intro root old new hroot hnew front last hold hsame
    obtain ⟨tree, hedit, hstructure, hexact⟩ := hroot.replace hnew hold hsame
    exact ⟨tree, hedit, Node.resolve?_of_setChild? hedit, hstructure, hexact⟩
  · intro ns i old new hns hold hsame
    exact sameSequence_set (fun n hn => Node.sameStructure_self (hns n hn)) hold hsame
  · exact (read_of_parse hparse).exact

/-- In `f(g(1))` the number is replaced by `0x1`, which has the same value. -/
theorem Node.sameStructure_equivalence_congruence_number :
    let root := Node.call "f" [.call "g" [.number (Numeral.value? "1") "1"]]
    let new := Node.number (Numeral.value? "0x1") "0x1"
    ∃ tree, root.editSlot? .arguments (fun slot => slot.setChild? (some 0) new)
        [⟨.arguments, some 0⟩] = some tree ∧
      Path.resolve? [⟨.arguments, some 0⟩, ⟨.arguments, some 0⟩] tree = some new ∧
      root.sameStructure tree = true := by
  intro root new
  have hroot : root.Exact Numeral.value? := .of_all (by decide) (by decide +kernel)
  have hnew : new.Exact Numeral.value? := .of_all (by decide) (by decide +kernel)
  have hsame : (Node.number (Numeral.value? "1") "1").sameStructure new = true := by
    decide +kernel
  obtain ⟨-, -, hreplace, -⟩ := Node.sameStructure_equivalence_congruence Numeral.value?
  obtain ⟨tree, hedit, hplace, hstructure, -⟩ :=
    hreplace root _ new hroot hnew [⟨.arguments, some 0⟩] ⟨.arguments, some 0⟩ rfl hsame
  exact ⟨tree, hedit, hplace, hstructure⟩

end Graft
