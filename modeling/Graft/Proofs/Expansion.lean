import Graft.Edit.Instantiate
import Graft.Proofs.WildcardRoles

/-!
# Expansion of a template

What instantiation makes of each part of a template, under bindings that give every wildcard what
its role asks for.
-/

namespace Graft

/-- The role that a name must have to be bound in this way. -/
def Binding.role : Binding → WildcardRole
  | node _ => .value
  | rest _ => .rest

/-- One node for every value wildcard, a sequence of nodes for every rest wildcard, and nothing
else. -/
def Bindings.Covers (s : Bindings) (w : Wildcards) : Prop :=
  ∀ name, (s.get? name).map Binding.role = w.get? name

variable {w : Wildcards} {s : Bindings}

theorem Bindings.Covers.value
    (hcovers : s.Covers w)
    {name : String}
    (hrole : w.get? name = some .value) :
    ∃ n, s.get? name = some (.node n) := by
  have hname := (hcovers name).trans hrole
  cases hbinding : s.get? name with
  | none => simp [hbinding] at hname
  | some b =>
      cases b with
      | node n => exact ⟨n, rfl⟩
      | rest ns => simp [hbinding, Binding.role] at hname

theorem Bindings.Covers.rest
    (hcovers : s.Covers w)
    {name : String}
    (hrole : w.get? name = some .rest) :
    ∃ ns, s.get? name = some (.rest ns) := by
  have hname := (hcovers name).trans hrole
  cases hbinding : s.get? name with
  | none => simp [hbinding] at hname
  | some b =>
      cases b with
      | node n => simp [hbinding, Binding.role] at hname
      | rest ns => exact ⟨ns, rfl⟩

theorem Bindings.Covers.role
    (hcovers : s.Covers w)
    {name : String} {b : Binding}
    (hbinding : s.get? name = some b) :
    w.get? name = some b.role := by
  rw [← hcovers name, hbinding]
  rfl

/-! ## What a node expands to -/

theorem Node.expansion?_of_valueName
    (hcovers : s.Covers w)
    {p : Node} {name : String}
    (hname : w.valueName? p = some name) :
    ∃ n, s.get? name = some (.node n) ∧ p.expansion? s = some (.one n) := by
  obtain ⟨hname, hrole⟩ := Wildcards.valueName?_eq_some_iff.mp hname
  obtain ⟨n, hn⟩ := hcovers.value hrole
  exact ⟨n, hn, by simp [Node.expansion?, hname, hn]⟩

theorem Node.expansion?_of_restName
    (hcovers : s.Covers w)
    {p : Node} {name : String}
    (hname : w.restName? p = some name) :
    ∃ ns, s.get? name = some (.rest ns) ∧ p.expansion? s = some (.many name ns) := by
  obtain ⟨hname, hrole⟩ := Wildcards.restName?_eq_some_iff.mp hname
  obtain ⟨hkind, c, hchild, hc⟩ := Node.restName?_eq_some_iff.mp hname
  obtain ⟨ns, hns⟩ := hcovers.rest hrole
  have hidentifier : p.kind ≠ .identifier := by
    rcases hkind with hkind | hkind <;> simp [hkind]
  have hcname : c.name? = some name := (Option.filter_eq_some_iff.mp hc).1
  refine ⟨ns, hns, ?_⟩
  have hpname : p.name? = none := by simp [Node.name?, hidentifier]
  simp [Node.expansion?, hpname, hkind, hchild, hcname, hns]

/-- A node that is neither a value wildcard nor the rest of a list is kept. -/
theorem Node.expansion?_eq_none
    (hcovers : s.Covers w) (hproper : w.Proper)
    {p : Node}
    (hadmits : ∀ use ∈ p.wildcardUses, w.Admits use) (hname : w.valueName? p = none) :
    p.expansion? s = none := by
  have hwildcard := Wildcards.wildcardName?_eq_none hadmits hname
  have hunbound : ∀ x, p.name? = some x → s.get? x = none := by
    intro x hx
    by_contra hbound
    obtain ⟨b, hb⟩ := Option.ne_none_iff_exists'.mp hbound
    have hnotwildcard := Option.filter_eq_none_iff.mp hwildcard x hx
    exact hnotwildcard (hproper x _ (hcovers.role hb))
  have hnotrest : p.kind = .spreadElement ∨ p.kind = .restElement →
      ∀ c x ns, p.child? .argument = some c → c.name? = some x → s.get? x = some (.rest ns) →
        False := by
    intro hkind c x ns hchild hx hns
    have hrole : w.get? x = some .rest := hcovers.role hns
    have hcname : c.wildcardName? = some x :=
      Option.filter_eq_some_iff.mpr ⟨hx, hproper x _ hrole⟩
    have hrest : p.restName? = some x :=
      Node.restName?_eq_some_iff.mpr ⟨hkind, c, hchild, hcname⟩
    have hvalue : w.get? x = some .value :=
      hadmits (.value x) (Node.value_mem_wildcardUses_of_restName hrest)
    rw [hrole] at hvalue
    cases hvalue
  have hself : (p.name?.bind fun x => (s.get? x).bind fun b => some (x, b)) = none := by
    cases hx : p.name? with
    | none => rfl
    | some x => simp [hunbound x hx]
  simp only [Node.expansion?, Option.bind_eq_bind, Option.pure_def, hself]
  split_ifs with hkind
  · split
    next x ns hrest =>
      obtain ⟨c, hchild, hbound⟩ := Option.bind_eq_some_iff.mp hrest
      obtain ⟨y, hy, hbound⟩ := Option.bind_eq_some_iff.mp hbound
      obtain ⟨b, hb, hpair⟩ := Option.bind_eq_some_iff.mp hbound
      cases hpair
      exact (hnotrest hkind c _ ns hchild hy hb).elim
    next => rfl
  · rfl

/-- What a node expands to is bound to its own name, or to the name behind its dots. -/
theorem Node.expansion?_eq_some
    {t : Node} {expansion : Expansion}
    (hexpansion : t.expansion? s = some expansion) :
    ∃ n name b, n.name? = some name ∧ s.get? name = some b ∧ expansion.nodes = b.nodes ∧
      (n = t ∨ (t.kind = .spreadElement ∨ t.kind = .restElement) ∧
        t.child? .argument = some n ∧ b.role = .rest) := by
  have hbound : ∀ {n : Node} {found : String × Binding},
      (n.name?.bind fun x => (s.get? x).bind fun b => some (x, b)) = some found →
        n.name? = some found.1 ∧ s.get? found.1 = some found.2 := by
    intro n found hfound
    obtain ⟨x, hx, hpaired⟩ := Option.bind_eq_some_iff.mp hfound
    obtain ⟨b, hb, hpair⟩ := Option.bind_eq_some_iff.mp hpaired
    cases hpair
    exact ⟨hx, hb⟩
  unfold Node.expansion? at hexpansion
  simp only [Option.bind_eq_bind, Option.pure_def] at hexpansion
  split at hexpansion
  next name c hself =>
    cases hexpansion
    exact ⟨t, name, .node c, (hbound hself).1, (hbound hself).2, rfl, Or.inl rfl⟩
  next name cs hself =>
    cases hexpansion
    exact ⟨t, name, .rest cs, (hbound hself).1, (hbound hself).2, rfl, Or.inl rfl⟩
  next =>
    split_ifs at hexpansion with hkind
    split at hexpansion
    next name cs hrest =>
      obtain ⟨c, hchild, hc⟩ := Option.bind_eq_some_iff.mp hrest
      cases hexpansion
      exact ⟨c, name, .rest cs, (hbound hc).1, (hbound hc).2, rfl, Or.inr ⟨hkind, hchild, rfl⟩⟩
    next => cases hexpansion

/-! ## One step of the expansion -/

theorem Node.expand_of_expansion
    {p : Node} {expansion : Expansion}
    (hexpansion : p.expansion? s = some expansion) :
    p.expand s = .ok expansion := by
  obtain ⟨kind, span, slots⟩ := p
  simp only [Node.expand, hexpansion]

theorem Node.expand_eq_ok_iff
    {p : Node} {expansion : Expansion}
    (hexpansion : p.expansion? s = none) :
    p.expand s = .ok expansion ↔
      ∃ slots, expandSlots s p p.slots = .ok slots ∧
        expansion = .one (.mk p.kind p.span slots) := by
  obtain ⟨kind, span, slots⟩ := p
  simp only [Node.expand, hexpansion, bind_eq_ok_iff, Node.kind_mk, Node.span_mk, Node.slots_mk]
  simp [pure, Except.pure, eq_comm]

theorem checkSlot_eq_ok_iff {parent child : Node} {field : Field} :
    checkSlot parent field child = .ok () ↔
      fitsSlot parent.kind (parent.flag .computed) field child.kind = true := by
  unfold checkSlot
  split_ifs with hfits <;> simp [hfits]

theorem forM_checkSlot_eq_ok_iff
    {parent : Node} {field : Field} {children : List Node} :
    children.forM (checkSlot parent field) = .ok () ↔
      ∀ c ∈ children, fitsSlot parent.kind (parent.flag .computed) field c.kind = true := by
  induction children with
  | nil => simp [pure, Except.pure]
  | cons c rest ih =>
      rw [List.forM, bind_eq_ok_iff, List.forall_mem_cons, ← ih, ← checkSlot_eq_ok_iff]
      exact ⟨fun ⟨_, hc, hrest⟩ => ⟨hc, hrest⟩, fun ⟨hc, hrest⟩ => ⟨(), hc, hrest⟩⟩

theorem Expansion.single_eq_ok_iff {expansion : Expansion} {n : Node} :
    expansion.single = .ok n ↔ expansion = .one n := by
  cases expansion <;> simp [Expansion.single]

theorem Slot.expand_node_eq_ok_iff
    {parent n : Node} {field : Field} {slot : Slot}
    (hcallee : isDirectCallee parent.kind field n = false) :
    (Slot.node n).expand s parent field = .ok slot ↔
      ∃ child, n.expand s = .ok (.one child) ∧
        fitsSlot parent.kind (parent.flag .computed) field child.kind = true ∧
        slot = .node child := by
  simp only [Slot.expand, hcallee, Bool.false_eq_true, if_false, bind_eq_ok_iff,
    Expansion.single_eq_ok_iff, ← checkSlot_eq_ok_iff]
  constructor
  · rintro ⟨expansion, hexpand, child, rfl, ⟨⟩, hcheck, hslot⟩
    cases hslot
    exact ⟨child, hexpand, hcheck, rfl⟩
  · rintro ⟨child, hexpand, hcheck, rfl⟩
    exact ⟨_, hexpand, child, rfl, (), hcheck, rfl⟩

theorem Slot.expand_list_eq_ok_iff
    {parent : Node} {ns : List Node} {field : Field} {slot : Slot} :
    (Slot.list ns).expand s parent field = .ok slot ↔
      ∃ children, expandNodes s ns = .ok children ∧
        (∀ c ∈ children, fitsSlot parent.kind (parent.flag .computed) field c.kind = true) ∧
        slot = .list children := by
  simp only [Slot.expand, bind_eq_ok_iff, ← forM_checkSlot_eq_ok_iff]
  constructor
  · rintro ⟨children, hexpand, ⟨⟩, hcheck, hslot⟩
    cases hslot
    exact ⟨children, hexpand, hcheck, rfl⟩
  · rintro ⟨children, hexpand, hcheck, rfl⟩
    exact ⟨children, hexpand, (), hcheck, rfl⟩

theorem expandSlots_cons_eq_ok_iff
    {parent : Node} {field : Field} {slot : Slot} {rest slots : List (Field × Slot)} :
    expandSlots s parent ((field, slot) :: rest) = .ok slots ↔
      ∃ first others, slot.expand s parent field = .ok first ∧
        expandSlots s parent rest = .ok others ∧ slots = (field, first) :: others := by
  simp only [expandSlots, bind_eq_ok_iff]
  constructor
  · rintro ⟨first, hfirst, others, hothers, hslots⟩
    cases hslots
    exact ⟨first, others, hfirst, hothers, rfl⟩
  · rintro ⟨first, others, hfirst, hothers, rfl⟩
    exact ⟨first, hfirst, others, hothers, rfl⟩

theorem expandNodes_cons_eq_ok_iff {n : Node} {rest nodes : List Node} :
    expandNodes s (n :: rest) = .ok nodes ↔
      ∃ first others, n.expand s = .ok first ∧ expandNodes s rest = .ok others ∧
        nodes = first.nodes ++ others := by
  simp only [expandNodes, bind_eq_ok_iff]
  constructor
  · rintro ⟨first, hfirst, others, hothers, hnodes⟩
    cases hnodes
    exact ⟨first, others, hfirst, hothers, rfl⟩
  · rintro ⟨first, others, hfirst, hothers, rfl⟩
    exact ⟨first, hfirst, others, hothers, rfl⟩

end Graft
