import Graft.Proofs.Subtree
import Mathlib.Data.List.Forall2
import Mathlib.Data.List.Perm.Subperm

/-!
# Same structure is an equivalence

Having the same structure ignores places and the order of slots, and it compares two numbers by
value where both have one and by text otherwise.  It is an equivalence on the trees in which no
node repeats a field, every number has the value that its text determines, and no number is a NaN.
Outside of those trees symmetry and transitivity can fail.
-/

namespace Graft

/-- A number has the value of its text and is not a NaN. -/
def Scalar.Exact (valueOf : String → Option Binary64) : Scalar → Prop
  | num value raw => value = valueOf raw ∧ ∀ x ∈ value, x.isNaN = false
  | _ => True

def Slot.ScalarExact (valueOf : String → Option Binary64) : Slot → Prop
  | scalar s => s.Exact valueOf
  | _ => True

instance (valueOf : String → Option Binary64) (s : Scalar) : Decidable (s.Exact valueOf) :=
  match s with
  | .num value raw =>
    inferInstanceAs (Decidable (value = valueOf raw ∧ ∀ x ∈ value, x.isNaN = false))
  | .text _ | .str _ | .bool _ | .null | .regex _ => .isTrue trivial

instance (valueOf : String → Option Binary64) (slot : Slot) :
    Decidable (slot.ScalarExact valueOf) :=
  match slot with
  | .scalar s => inferInstanceAs (Decidable (s.Exact valueOf))
  | .node _ | .list _ | .absent => .isTrue trivial

/-- The numbers of the node have the values of their texts and are not NaNs. -/
def Node.NumbersExact (valueOf : String → Option Binary64) (n : Node) : Prop :=
  ∀ entry ∈ n.slots, entry.2.ScalarExact valueOf

instance (valueOf : String → Option Binary64) (n : Node) : Decidable (n.NumbersExact valueOf) :=
  inferInstanceAs (Decidable (∀ entry ∈ n.slots, entry.2.ScalarExact valueOf))

/-- A node with one slot to a field, whose own numbers are exact. -/
structure Node.ExactHere (valueOf : String → Option Binary64) (n : Node) : Prop where
  distinct : n.fields.Nodup
  numbers : n.NumbersExact valueOf

/-- The trees that are compared faithfully. -/
def Node.Exact (valueOf : String → Option Binary64) (n : Node) : Prop :=
  n.All (Node.ExactHere valueOf)

/-! ## Scalars -/

theorem Binary64.numericEq_self {x : Binary64} (hx : x.isNaN = false) :
    x.numericEq x = true := by
  simp [Binary64.numericEq, hx]

/-- Equality of bits carries the magnitude along, so the two zeros stay equal to each other. -/
theorem Binary64.numericEq_euclid
    {x y z : Binary64}
    (hy : x.numericEq y = true) (hz : x.numericEq z = true) :
    y.numericEq z = true := by
  simp only [Binary64.numericEq, Bool.and_eq_true, Bool.or_eq_true, Bool.not_eq_true',
    beq_iff_eq] at hy hz ⊢
  refine ⟨⟨hy.1.2, hz.1.2⟩, ?_⟩
  rcases hy.2 with hxy | ⟨hx, hy⟩
  · rcases hz.2 with hxz | ⟨hx, hz⟩
    · exact .inl (hxy.symm.trans hxz)
    · have hmagnitude : y.magnitude = 0 := by
        rw [← hx, Binary64.magnitude, Binary64.magnitude, hxy]
      exact .inr ⟨hmagnitude, hz⟩
  · rcases hz.2 with hxz | ⟨-, hz⟩
    · have hmagnitude : z.magnitude = 0 := by
        rw [← hx, Binary64.magnitude, Binary64.magnitude, hxz]
      exact .inr ⟨hy, hmagnitude⟩
    · exact .inr ⟨hy, hz⟩

theorem Scalar.same_self
    {valueOf : String → Option Binary64} {s : Scalar}
    (hs : s.Exact valueOf) :
    s.same s = true := by
  cases s with
  | num value raw =>
      cases value with
      | none => simp [Scalar.same]
      | some x => exact Binary64.numericEq_self (hs.2 x rfl)
  | _ => simp [Scalar.same]

/-- Two numbers with the values of their texts are compared by value or have one and the same
text without a value. -/
theorem Scalar.same_num_iff (valueOf : String → Option Binary64) {raw raw' : String} :
    (num (valueOf raw) raw).same (num (valueOf raw') raw') = true ↔
      (∃ x y, valueOf raw = some x ∧ valueOf raw' = some y ∧ x.numericEq y = true) ∨
        (valueOf raw = none ∧ raw = raw') := by
  cases hvalue : valueOf raw with
  | none => cases hvalue' : valueOf raw' <;> simp [Scalar.same]
  | some x =>
      cases hvalue' : valueOf raw' with
      | none =>
          have hne : raw ≠ raw' := by
            rintro rfl
            rw [hvalue] at hvalue'
            cases hvalue'
          simp [Scalar.same, hne]
      | some y => simp [Scalar.same]

theorem Scalar.same_euclid
    {valueOf : String → Option Binary64} {a b c : Scalar}
    (ha : a.Exact valueOf)
    (hb : b.Exact valueOf)
    (hc : c.Exact valueOf)
    (hab : a.same b = true)
    (hac : a.same c = true) :
    b.same c = true := by
  cases a with
  | num value raw =>
      cases b with
      | num value' raw' =>
          cases c with
          | num value'' raw'' =>
              obtain ⟨rfl, -⟩ := ha
              obtain ⟨rfl, -⟩ := hb
              obtain ⟨rfl, -⟩ := hc
              rw [Scalar.same_num_iff] at hab hac ⊢
              rcases hab with ⟨x, y, hx, hy, hxy⟩ | ⟨hnone, rfl⟩
              · rcases hac with ⟨x', z, hx', hz, hxz⟩ | ⟨hnone, -⟩
                · cases hx.symm.trans hx'
                  exact .inl ⟨y, z, hy, hz, Binary64.numericEq_euclid hxy hxz⟩
                · cases hx.symm.trans hnone
              · exact hac
          | _ => simp [Scalar.same] at hac
      | _ => simp [Scalar.same] at hab
  | _ =>
      cases b <;> simp only [Scalar.same, beq_iff_eq, Bool.false_eq_true] at hab
      cases c <;> simp_all [Scalar.same]

/-! ## One level of a tree -/

theorem sameSlots_iff {slots others : List (Field × Slot)} :
    sameSlots slots others = true ↔
      ∀ entry ∈ slots, ∃ other,
        others.lookup entry.1 = some other ∧ entry.2.sameStructure other = true := by
  induction slots with
  | nil => simp [sameSlots]
  | cons entry rest ih =>
      obtain ⟨field, slot⟩ := entry
      rw [sameSlots, Bool.and_eq_true, ih, List.forall_mem_cons]
      cases others.lookup field <;> simp

theorem sameSequence_iff {as bs : List Node} :
    sameSequence as bs = true ↔ List.Forall₂ (fun a b => a.sameStructure b = true) as bs := by
  induction as generalizing bs with
  | nil => cases bs <;> simp [sameSequence]
  | cons a as ih => cases bs <;> simp [sameSequence, ih]

theorem exists_mem_of_sameSequence
    {as bs : List Node}
    (hsame : sameSequence as bs = true)
    {a : Node}
    (ha : a ∈ as) :
    ∃ b ∈ bs, a.sameStructure b = true := by
  rw [sameSequence_iff] at hsame
  induction hsame with
  | nil => simp at ha
  | cons hfirst _ ih =>
      rcases List.mem_cons.mp ha with rfl | ha
      · exact ⟨_, by simp, hfirst⟩
      · obtain ⟨b, hb, hsame⟩ := ih ha
        exact ⟨b, by simp [hb], hsame⟩

theorem Node.sameStructure_iff {a b : Node} :
    a.sameStructure b = true ↔
      a.kind = b.kind ∧ a.slots.length = b.slots.length ∧
        ∀ entry ∈ a.slots, ∃ other,
          b.slot? entry.1 = some other ∧ entry.2.sameStructure other = true := by
  obtain ⟨kind, span, slots⟩ := a
  simp [Node.sameStructure, Node.slot?, sameSlots_iff, and_assoc]

/-- Slots in the same order. -/
theorem Node.sameStructure_mk
    {kind : Kind} {span span' : Span} {slots slots' : List (Field × Slot)}
    (hdistinct : (slots'.map Prod.fst).Nodup)
    (hslots : List.Forall₂ (fun a b => a.1 = b.1 ∧ a.2.sameStructure b.2 = true) slots slots') :
    (mk kind span slots).sameStructure (mk kind span' slots') = true := by
  refine Node.sameStructure_iff.mpr ⟨rfl, hslots.length_eq, ?_⟩
  have hpartner : ∀ entry ∈ slots, ∃ other ∈ slots',
      entry.1 = other.1 ∧ entry.2.sameStructure other.2 = true := by
    clear hdistinct
    induction hslots with
    | nil => simp
    | cons hfirst _ ih =>
        intro entry hentry
        rcases List.mem_cons.mp hentry with rfl | hrest
        · exact ⟨_, List.mem_cons_self, hfirst⟩
        · obtain ⟨other, hother, hsame⟩ := ih entry hrest
          exact ⟨other, List.mem_cons_of_mem _ hother, hsame⟩
  intro entry hentry
  obtain ⟨other, hother, hfield, hsame⟩ := hpartner entry hentry
  exact ⟨other.2, hfield ▸ lookup_eq_some_of_mem hdistinct hother, hsame⟩

/-- Fields that all occur among equally many others are those others in some order. -/
theorem Node.fields_perm_of_sameStructure
    {a b : Node}
    (ha : a.fields.Nodup) (hsame : a.sameStructure b = true) :
    a.fields.Perm b.fields := by
  obtain ⟨-, hlength, hslots⟩ := Node.sameStructure_iff.mp hsame
  have hsubset : a.fields ⊆ b.fields := by
    intro field hfield
    obtain ⟨entry, hentry, rfl⟩ := List.mem_map.mp hfield
    obtain ⟨other, hother, -⟩ := hslots entry hentry
    exact List.mem_map.mpr ⟨_, Node.mem_slots_of_slot? hother, rfl⟩
  refine (List.subperm_of_subset ha hsubset).perm_of_length_le ?_
  simp only [Node.fields, List.length_map, hlength, Nat.le_refl]

theorem Slot.sameStructure_self
    {slot : Slot}
    (hscalar : ∀ s, slot = .scalar s → s.same s = true)
    (hchildren : ∀ c ∈ slot.children, c.sameStructure c = true) :
    slot.sameStructure slot = true := by
  cases slot with
  | node n => exact hchildren n (by simp [Slot.children])
  | list ns => exact sameSequence_iff.mpr (List.forall₂_same.mpr hchildren)
  | absent => rfl
  | scalar s => exact hscalar s rfl

theorem sameSequence_euclid
    {as bs cs : List Node}
    (ih : ∀ a ∈ as, ∀ b ∈ bs, ∀ c ∈ cs,
      a.sameStructure b = true → a.sameStructure c = true → b.sameStructure c = true)
    (hab : sameSequence as bs = true)
    (hac : sameSequence as cs = true) :
    sameSequence bs cs = true := by
  rw [sameSequence_iff] at hab hac ⊢
  induction hab generalizing cs with
  | nil =>
      cases hac
      exact .nil
  | cons hb _ ihrest =>
      cases hac with
      | cons hc hcs =>
          refine .cons (ih _ (by simp) _ (by simp) _ (by simp) hb hc) (ihrest ?_ hcs)
          intro a ha b hb c hc
          exact ih a (by simp [ha]) b (by simp [hb]) c (by simp [hc])

theorem Slot.sameStructure_euclid
    {a b c : Slot}
    (hscalar : ∀ x y z, a = .scalar x → b = .scalar y → c = .scalar z →
      x.same y = true → x.same z = true → y.same z = true)
    (ih : ∀ x ∈ a.children, ∀ y ∈ b.children, ∀ z ∈ c.children,
      x.sameStructure y = true → x.sameStructure z = true → y.sameStructure z = true)
    (hab : a.sameStructure b = true)
    (hac : a.sameStructure c = true) :
    b.sameStructure c = true := by
  cases a with
  | node x =>
      cases b <;> simp only [Slot.sameStructure, Bool.false_eq_true] at hab
      cases c <;> simp only [Slot.sameStructure, Bool.false_eq_true] at hac
      exact ih _ (by simp [Slot.children]) _ (by simp [Slot.children]) _
        (by simp [Slot.children]) hab hac
  | list xs =>
      cases b <;> simp only [Slot.sameStructure, Bool.false_eq_true] at hab
      cases c <;> simp only [Slot.sameStructure, Bool.false_eq_true] at hac
      exact sameSequence_euclid ih hab hac
  | absent =>
      cases b <;> simp only [Slot.sameStructure, Bool.false_eq_true] at hab
      exact hac
  | scalar x =>
      cases b <;> simp only [Slot.sameStructure, Bool.false_eq_true] at hab
      cases c <;> simp only [Slot.sameStructure, Bool.false_eq_true] at hac
      exact hscalar _ _ _ rfl rfl rfl hab hac

/-! ## Whole trees -/

section Equivalence

variable {valueOf : String → Option Binary64}

theorem Node.sameStructure_self {n : Node} (hn : n.Exact valueOf) :
    n.sameStructure n = true := by
  induction n using Node.childInduction with
  | hparent n ih =>
      have hhere := hn.here
      refine Node.sameStructure_iff.mpr ⟨rfl, rfl, ?_⟩
      rintro ⟨field, slot⟩ hentry
      refine ⟨slot, (Node.slot?_eq_some_iff hhere.distinct).mpr hentry, ?_⟩
      refine Slot.sameStructure_self ?_ ?_
      · rintro s rfl
        exact Scalar.same_self (hhere.numbers _ hentry)
      · intro c hc
        exact ih _ hentry c hc (hn.child hentry hc)

/-- Two trees of the same structure as a third have the same structure.  Together with reflexivity
this gives the other two laws of an equivalence. -/
theorem Node.sameStructure_euclid
    {a b c : Node}
    (ha : a.Exact valueOf)
    (hb : b.Exact valueOf)
    (hc : c.Exact valueOf)
    (hab : a.sameStructure b = true)
    (hac : a.sameStructure c = true) :
    b.sameStructure c = true := by
  induction a using Node.childInduction generalizing b c with
  | hparent a ih =>
      have hfields := Node.fields_perm_of_sameStructure ha.here.distinct hab
      obtain ⟨hkindb, hlengthb, hslotsb⟩ := Node.sameStructure_iff.mp hab
      obtain ⟨hkindc, hlengthc, hslotsc⟩ := Node.sameStructure_iff.mp hac
      refine Node.sameStructure_iff.mpr
        ⟨hkindb.symm.trans hkindc, hlengthb.symm.trans hlengthc, ?_⟩
      rintro ⟨field, slot⟩ hentry
      have hfield : field ∈ a.fields :=
        hfields.mem_iff.mpr (List.mem_map.mpr ⟨_, hentry, rfl⟩)
      obtain ⟨⟨_, third⟩, hthird, rfl⟩ := List.mem_map.mp hfield
      obtain ⟨slot', hslot', hsameb⟩ := hslotsb _ hthird
      obtain ⟨other, hother, hsamec⟩ := hslotsc _ hthird
      -- no field of `b` is repeated, so the partner of the third slot is the given one
      have heq : b.slot? _ = some slot := (Node.slot?_eq_some_iff hb.here.distinct).mpr hentry
      cases hslot'.symm.trans heq
      have hmem := Node.mem_slots_of_slot? hother
      refine ⟨other, hother, Slot.sameStructure_euclid ?_ ?_ hsameb hsamec⟩
      · rintro x y z rfl rfl rfl
        exact Scalar.same_euclid (ha.here.numbers _ hthird) (hb.here.numbers _ hentry)
          (hc.here.numbers _ hmem)
      · intro x hx y hy z hz
        exact ih _ hthird x hx (ha.child hthird hx) (hb.child hentry hy) (hc.child hmem hz)

theorem Node.sameStructure_symm
    {a b : Node}
    (ha : a.Exact valueOf) (hb : b.Exact valueOf) (hab : a.sameStructure b = true) :
    b.sameStructure a = true :=
  Node.sameStructure_euclid ha hb ha hab (Node.sameStructure_self ha)

theorem Node.sameStructure_trans
    {a b c : Node}
    (ha : a.Exact valueOf)
    (hb : b.Exact valueOf)
    (hc : c.Exact valueOf)
    (hab : a.sameStructure b = true)
    (hbc : b.sameStructure c = true) :
    a.sameStructure c = true :=
  Node.sameStructure_euclid hb ha hc (Node.sameStructure_symm ha hb hab) hbc

end Equivalence

end Graft
