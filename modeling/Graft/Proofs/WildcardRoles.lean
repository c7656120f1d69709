import Graft.Proofs.Compile
import Graft.Proofs.Subtree

/-!
# Roles of wildcards

Collecting the wildcards of a pattern succeeds when no name is used both for one node and for the
rest of a list, and no rest wildcard has elements behind it.  The collected roles are then those
of all uses and of nothing else.
-/

namespace Graft

def WildcardUse.name : WildcardUse → String
  | value name | rest name | misplacedRest name => name

/-- The use agrees with the role of its name. -/
def Wildcards.Admits (w : Wildcards) : WildcardUse → Prop
  | .value name => w.get? name = some .value
  | .rest name => w.get? name = some .rest
  | .misplacedRest _ => False

/-- Only names of the form of a wildcard have a role. -/
def Wildcards.Proper (w : Wildcards) : Prop :=
  ∀ name role, w.get? name = some role → isWildcardName name = true

/-! ## Collecting -/

theorem Wildcards.get?_declare
    {w w' : Wildcards} {name : String} {role : WildcardRole}
    (hdeclare : w.declare name role = .ok w')
    (other : String) :
    w'.get? other = if other = name then some role else w.get? other := by
  unfold Wildcards.declare at hdeclare
  cases hname : w.get? name with
  | some found =>
      simp only [hname] at hdeclare
      split_ifs at hdeclare with hrole
      cases hdeclare
      by_cases hother : other = name
      · rw [if_pos hother, hother, hname, hrole]
      · rw [if_neg hother]
  | none =>
      simp only [hname] at hdeclare
      cases hdeclare
      simp only [Wildcards.get?] at hname ⊢
      rw [List.lookup_append]
      by_cases hother : other = name
      · simp [hother, hname]
      · rw [if_neg hother, List.lookup_cons, beq_false_of_ne hother]
        simp

theorem Wildcards.addUse_eq_ok
    {w w' : Wildcards} {use : WildcardUse}
    (hadd : w.addUse use = .ok w') :
    w'.Admits use ∧ ∀ other, other ≠ use.name → w'.get? other = w.get? other := by
  cases use with
  | value name =>
      refine ⟨?_, fun other hother => ?_⟩
      · rw [Wildcards.Admits, Wildcards.get?_declare hadd, if_pos rfl]
      · rw [Wildcards.get?_declare hadd]
        exact if_neg hother
  | rest name =>
      refine ⟨?_, fun other hother => ?_⟩
      · rw [Wildcards.Admits, Wildcards.get?_declare hadd, if_pos rfl]
      · rw [Wildcards.get?_declare hadd]
        exact if_neg hother
  | misplacedRest name => cases hadd

theorem Wildcards.get?_addUse
    {w w' : Wildcards} {use : WildcardUse} {name : String} {role : WildcardRole}
    (hadd : w.addUse use = .ok w') (hrole : w.get? name = some role) :
    w'.get? name = some role := by
  by_cases hname : name = use.name
  · subst hname
    cases use with
    | misplacedRest name => cases hadd
    | _ =>
        simp only [WildcardUse.name] at hrole ⊢
        simp only [Wildcards.addUse, Wildcards.declare, hrole] at hadd
        split_ifs at hadd
        cases hadd
        exact hrole
  · rw [(Wildcards.addUse_eq_ok hadd).2 name hname, hrole]

theorem Wildcards.foldlM_addUse_eq_ok
    {uses : List WildcardUse} {w w' : Wildcards}
    (hfold : uses.foldlM Wildcards.addUse w = .ok w') :
    (∀ name role, w.get? name = some role → w'.get? name = some role) ∧
      (∀ use ∈ uses, w'.Admits use) ∧
      ∀ name role, w'.get? name = some role →
        w.get? name = some role ∨ ∃ use ∈ uses, use.name = name := by
  induction uses generalizing w with
  | nil =>
      cases hfold
      exact ⟨fun _ _ hrole => hrole, by simp, fun _ _ hrole => .inl hrole⟩
  | cons use rest ih =>
      rw [List.foldlM_cons] at hfold
      obtain ⟨mid, hmid, hrest⟩ := bind_eq_ok_iff.mp hfold
      obtain ⟨hkept, hadmits, honly⟩ := ih hrest
      refine ⟨fun name role hrole => hkept name role (Wildcards.get?_addUse hmid hrole), ?_, ?_⟩
      · intro other hother
        rcases List.mem_cons.mp hother with rfl | hother
        · have hmidadmits := (Wildcards.addUse_eq_ok hmid).1
          cases other with
          | value name => exact hkept _ _ hmidadmits
          | rest name => exact hkept _ _ hmidadmits
          | misplacedRest name => exact hmidadmits
        · exact hadmits other hother
      · intro name role hrole
        rcases honly name role hrole with hrole | ⟨other, hother, hname⟩
        · by_cases hname : name = use.name
          · exact .inr ⟨use, by simp, hname.symm⟩
          · rw [(Wildcards.addUse_eq_ok hmid).2 name hname] at hrole
            exact .inl hrole
        · exact .inr ⟨other, by simp [hother], hname⟩

theorem Wildcards.admits_of_collect
    {nodes : List Node} {w : Wildcards}
    (hcollect : Wildcards.collect nodes = .ok w) :
    ∀ use ∈ wildcardUsesInNodes false nodes, w.Admits use :=
  (Wildcards.foldlM_addUse_eq_ok hcollect).2.1

theorem Wildcards.exists_use_of_collect
    {nodes : List Node} {w : Wildcards}
    (hcollect : Wildcards.collect nodes = .ok w)
    {name : String} {role : WildcardRole}
    (hrole : w.get? name = some role) :
    ∃ use ∈ wildcardUsesInNodes false nodes, use.name = name := by
  rcases (Wildcards.foldlM_addUse_eq_ok hcollect).2.2 name role hrole with hnone | huse
  · simp [Wildcards.get?] at hnone
  · exact huse

/-! ## Uses in a tree -/

theorem Node.wildcardUses_of_wildcardName
    {n : Node} {name : String}
    (hname : n.wildcardName? = some name) :
    n.wildcardUses = [.value name] := by
  obtain ⟨kind, span, slots⟩ := n
  simp only [Node.wildcardUses, hname]

theorem Node.wildcardUses_eq {n : Node} (hname : n.wildcardName? = none) :
    n.wildcardUses = wildcardUsesInSlots n.kind n.slots := by
  obtain ⟨kind, span, slots⟩ := n
  simp only [Node.wildcardUses, hname, Node.kind_mk, Node.slots_mk]

theorem mem_wildcardUsesInSlots_iff
    {use : WildcardUse} {parent : Kind} {slots : List (Field × Slot)} :
    use ∈ wildcardUsesInSlots parent slots ↔
      ∃ entry ∈ slots, use ∈ entry.2.wildcardUses parent entry.1 := by
  induction slots with
  | nil => simp [wildcardUsesInSlots]
  | cons entry rest ih => simp [wildcardUsesInSlots, ih]

theorem Node.isWildcardName_of_wildcardName
    {n : Node} {name : String}
    (hname : n.wildcardName? = some name) :
    isWildcardName name = true :=
  (Option.filter_eq_some_iff.mp hname).2

theorem isWildcardName_of_mem_nodes
    {acceptsRest : Bool} {ns : List Node}
    (ih : ∀ n ∈ ns, ∀ use ∈ n.wildcardUses, isWildcardName use.name = true) :
    ∀ use ∈ wildcardUsesInNodes acceptsRest ns, isWildcardName use.name = true := by
  induction ns with
  | nil => simp [wildcardUsesInNodes]
  | cons n rest ihrest =>
      intro use huse
      rw [wildcardUsesInNodes] at huse
      rcases List.mem_append.mp huse with hfirst | hothers
      · split at hfirst
        next name hname =>
          have hrest : n.restName? = some name := by
            cases acceptsRest <;> simp_all
          unfold Node.restName? at hrest
          split_ifs at hrest
          obtain ⟨child, -, hchild⟩ := Option.bind_eq_some_iff.mp hrest
          have hwild := Node.isWildcardName_of_wildcardName hchild
          cases List.mem_singleton.mp hfirst
          split_ifs <;> exact hwild
        next => exact ih n (by simp) use hfirst
      · exact ihrest (fun n hn => ih n (by simp [hn])) use hothers

theorem Node.isWildcardName_of_mem_wildcardUses {n : Node} :
    ∀ use ∈ n.wildcardUses, isWildcardName use.name = true := by
  induction n using Node.childInduction with
  | hparent n ih =>
      intro use huse
      cases hname : n.wildcardName? with
      | some name =>
          rw [Node.wildcardUses_of_wildcardName hname] at huse
          cases List.mem_singleton.mp huse
          exact Node.isWildcardName_of_wildcardName hname
      | none =>
          rw [Node.wildcardUses_eq hname, mem_wildcardUsesInSlots_iff] at huse
          obtain ⟨⟨field, slot⟩, hentry, hslot⟩ := huse
          cases slot with
          | node c =>
              simp only [Slot.wildcardUses] at hslot
              split_ifs at hslot
              · simp at hslot
              · exact ih _ hentry c (by simp [Slot.children]) use hslot
          | list cs => exact isWildcardName_of_mem_nodes (ih _ hentry) use hslot
          | absent => simp [Slot.wildcardUses] at hslot
          | scalar s => simp [Slot.wildcardUses] at hslot

theorem Wildcards.proper_of_collect
    {nodes : List Node} {w : Wildcards}
    (hcollect : Wildcards.collect nodes = .ok w) :
    w.Proper := by
  intro name role hrole
  obtain ⟨use, huse, rfl⟩ := Wildcards.exists_use_of_collect hcollect hrole
  exact isWildcardName_of_mem_nodes (fun n _ => Node.isWildcardName_of_mem_wildcardUses) use huse

/-! ## Names that a pattern stands for -/

theorem Wildcards.valueName?_eq_some_iff {w : Wildcards} {n : Node} {name : String} :
    w.valueName? n = some name ↔ n.name? = some name ∧ w.get? name = some .value := by
  simp [Wildcards.valueName?, Option.filter_eq_some_iff]

theorem Wildcards.restName?_eq_some_iff {w : Wildcards} {n : Node} {name : String} :
    w.restName? n = some name ↔ n.restName? = some name ∧ w.get? name = some .rest := by
  simp [Wildcards.restName?, Option.filter_eq_some_iff]

/-- Every wildcard that is met outside of the end of a list has the role of a value. -/
theorem Wildcards.valueName?_of_wildcardName
    {w : Wildcards} {n : Node} {name : String}
    (hadmits : ∀ use ∈ n.wildcardUses, w.Admits use) (hname : n.wildcardName? = some name) :
    w.valueName? n = some name := by
  rw [Node.wildcardUses_of_wildcardName hname] at hadmits
  exact Wildcards.valueName?_eq_some_iff.mpr
    ⟨(Option.filter_eq_some_iff.mp hname).1, hadmits (.value name) (by simp)⟩

theorem Wildcards.wildcardName?_eq_none
    {w : Wildcards} {n : Node}
    (hadmits : ∀ use ∈ n.wildcardUses, w.Admits use) (hname : w.valueName? n = none) :
    n.wildcardName? = none := by
  by_contra hsome
  obtain ⟨name, hwildcard⟩ := Option.ne_none_iff_exists'.mp hsome
  rw [Wildcards.valueName?_of_wildcardName hadmits hwildcard] at hname
  cases hname

theorem Node.restName?_eq_some_iff {n : Node} {name : String} :
    n.restName? = some name ↔
      (n.kind = .spreadElement ∨ n.kind = .restElement) ∧
        ∃ c, n.child? .argument = some c ∧ c.wildcardName? = some name := by
  unfold Node.restName?
  split_ifs with hkind
  · simp [hkind, Option.bind_eq_some_iff]
  · simp [hkind]

/-- Taken for itself, `...x` is a use of `x` as a value. -/
theorem Node.value_mem_wildcardUses_of_restName
    {n : Node} {name : String}
    (hname : n.restName? = some name) :
    .value name ∈ n.wildcardUses := by
  obtain ⟨hkind, c, hchild, hc⟩ := Node.restName?_eq_some_iff.mp hname
  have hnone : n.wildcardName? = none := by
    have hidentifier : n.kind ≠ .identifier := by
      rcases hkind with hkind | hkind <;> simp [hkind]
    simp [Node.wildcardName?, Node.name?, hidentifier]
  rw [Node.wildcardUses_eq hnone, mem_wildcardUsesInSlots_iff]
  refine ⟨_, Node.mem_slots_of_slot? (Node.child?_eq_some_iff.mp hchild), ?_⟩
  simp [Slot.wildcardUses, isDirectCallee, Node.wildcardUses_of_wildcardName hc]

/-- An element that is not the rest of its list counts with the wildcards below it. -/
theorem wildcardUsesInNodes_cons_of_admits
    {w : Wildcards} {acceptsRest : Bool} {p : Node} {ps : List Node}
    (hadmits : ∀ use ∈ wildcardUsesInNodes acceptsRest (p :: ps), w.Admits use)
    (hlast : ps = [] → w.restName? p = none) :
    wildcardUsesInNodes acceptsRest (p :: ps) =
      p.wildcardUses ++ wildcardUsesInNodes acceptsRest ps := by
  rw [wildcardUsesInNodes] at hadmits ⊢
  split
  next name hname =>
    simp only [hname] at hadmits
    have hrest : p.restName? = some name := by
      cases acceptsRest <;> simp_all
    have hadmitted := hadmits _ (List.mem_append_left _ (List.mem_singleton.mpr rfl))
    cases ps with
    | nil =>
        have hnone := hlast rfl
        rw [Wildcards.restName?_eq_some_iff.mpr ⟨hrest, hadmitted⟩] at hnone
        cases hnone
    | cons next ps => exact hadmitted.elim
  next => rfl

/-- An element that is the rest of its list stands in a list that accepts one. -/
theorem wildcardUsesInNodes_singleton_of_restName
    {w : Wildcards} {acceptsRest : Bool} {p : Node} {name : String}
    (hadmits : ∀ use ∈ wildcardUsesInNodes acceptsRest [p], w.Admits use)
    (hname : w.restName? p = some name) :
    wildcardUsesInNodes acceptsRest [p] = [.rest name] := by
  obtain ⟨hrest, hrole⟩ := Wildcards.restName?_eq_some_iff.mp hname
  cases acceptsRest with
  | true => simp [wildcardUsesInNodes, hrest]
  | false =>
      have hvalue : w.get? name = some .value := by
        refine hadmits (.value name) ?_
        simpa [wildcardUsesInNodes] using Node.value_mem_wildcardUses_of_restName hrest
      rw [hrole] at hvalue
      cases hvalue

theorem mem_wildcardUsesInNodes_false_iff {use : WildcardUse} {ns : List Node} :
    use ∈ wildcardUsesInNodes false ns ↔ ∃ n ∈ ns, use ∈ n.wildcardUses := by
  induction ns with
  | nil => simp [wildcardUsesInNodes]
  | cons n rest ih => simp [wildcardUsesInNodes, ih]

/-- A sequence of statements does not end in a rest wildcard. -/
theorem restName?_getLast_eq_none
    {w : Wildcards} {ps : List Node}
    (hadmits : ∀ use ∈ wildcardUsesInNodes false ps, w.Admits use) :
    ps.getLast?.bind w.restName? = none := by
  cases hname : ps.getLast?.bind w.restName? with
  | none => rfl
  | some name =>
      obtain ⟨last, hlast, hrest⟩ := Option.bind_eq_some_iff.mp hname
      obtain ⟨hrest, hrole⟩ := Wildcards.restName?_eq_some_iff.mp hrest
      have hvalue : w.get? name = some .value := by
        refine hadmits (.value name) (mem_wildcardUsesInNodes_false_iff.mpr ?_)
        exact ⟨last, List.mem_of_getLast? hlast, Node.value_mem_wildcardUses_of_restName hrest⟩
      rw [hrole] at hvalue
      cases hvalue

theorem restName?_getLast_of_cons
    {w : Wildcards} {tail : Option String} {p : Node} {ps : List Node}
    (htail : tail = (p :: ps).getLast?.bind w.restName?) (hnot : ps = [] → tail = none) :
    (ps = [] → w.restName? p = none) ∧ tail = ps.getLast?.bind w.restName? := by
  cases ps with
  | nil =>
      have hnone : w.restName? p = none := by
        simpa [hnot rfl] using htail.symm
      exact ⟨fun _ => hnone, hnot rfl⟩
  | cons next ps =>
      rw [List.getLast?_cons_cons] at htail
      exact ⟨fun hnil => by simp at hnil, htail⟩

end Graft
