import Graft.Proofs.ClosedTemplate
import Graft.Proofs.Unplaced
import Mathlib.Logic.Equiv.Defs

/-!
# Renaming the wildcards of a rule

The letters of a rule's wildcards may be exchanged for one another.  An identifier that is called
directly is not a wildcard and keeps its name.  Every function that reads names in a rule follows
the renaming, whatever names occur in the program the rule is applied to.
-/

namespace Graft

/-! ## Letters -/

/-- The letters that name wildcards. -/
abbrev Letter := { c : Char // c.isLower = true }

/-- The name after a permutation of the letters; a name that is not a letter stays. -/
def renameName (σ : Equiv.Perm Letter) (name : String) : String :=
  match name.toList with
  | [c] => if hc : c.isLower = true then String.singleton (σ ⟨c, hc⟩) else name
  | _ => name

theorem isWildcardName_iff {name : String} :
    isWildcardName name = true ↔ ∃ c : Letter, name = String.singleton c := by
  constructor
  · intro hname
    unfold isWildcardName at hname
    split at hname
    next c hc => exact ⟨⟨c, hname⟩, String.toList_injective (by simp [hc])⟩
    next => cases hname
  · rintro ⟨c, rfl⟩
    simpa [isWildcardName] using c.property

variable {σ : Equiv.Perm Letter}

@[simp] theorem renameName_singleton (c : Letter) :
    renameName σ (String.singleton c) = String.singleton (σ c) := by
  simp [renameName, c.property]

theorem renameName_of_not_wildcard {name : String} (hname : isWildcardName name = false) :
    renameName σ name = name := by
  unfold isWildcardName at hname
  unfold renameName
  split
  next c hc =>
    rw [hc] at hname
    exact dif_neg (by simp [hname])
  next => rfl

@[simp] theorem isWildcardName_renameName (name : String) :
    isWildcardName (renameName σ name) = isWildcardName name := by
  cases hname : isWildcardName name with
  | false => rw [renameName_of_not_wildcard hname, hname]
  | true =>
      obtain ⟨c, rfl⟩ := isWildcardName_iff.mp hname
      rw [renameName_singleton]
      exact isWildcardName_iff.mpr ⟨σ c, rfl⟩

theorem renameName_symm (name : String) : renameName σ.symm (renameName σ name) = name := by
  cases hname : isWildcardName name with
  | false => rw [renameName_of_not_wildcard hname, renameName_of_not_wildcard hname]
  | true =>
      obtain ⟨c, rfl⟩ := isWildcardName_iff.mp hname
      simp

theorem renameName_injective : Function.Injective (renameName σ) :=
  Function.LeftInverse.injective renameName_symm

/-- An association keeps what it gives for a name when the names on both sides change. -/
theorem lookup_map_renameName {β : Type} (entries : List (String × β)) (name : String) :
    (entries.map fun entry => (renameName σ entry.1, entry.2)).lookup (renameName σ name) =
      entries.lookup name := by
  induction entries with
  | nil => rfl
  | cons entry rest ih =>
      have hkeys : (renameName σ name == renameName σ entry.1) = (name == entry.1) := by
        rw [Bool.eq_iff_iff, beq_iff_eq, beq_iff_eq, renameName_injective.eq_iff]
      rw [List.map_cons, List.lookup_cons, List.lookup_cons, hkeys, ih]

/-! ## Trees -/

mutual

/-- The tree with its wildcards renamed. -/
def Node.rename (σ : Equiv.Perm Letter) : Node → Node
  | .mk kind span slots =>
    match (Node.mk kind span slots).wildcardName? with
    | some name => .mk kind span (Node.setSlot .name (.text (renameName σ name)) slots)
    | none => .mk kind span (renameSlots σ kind slots)
termination_by structural n => n

def Slot.rename (σ : Equiv.Perm Letter) (parent : Kind) (field : Field) : Slot → Slot
  | .node n => if isDirectCallee parent field n then .node n else .node (n.rename σ)
  | .list ns => .list (renameNodes σ ns)
  | .absent => .absent
  | .scalar s => .scalar s
termination_by structural s => s

def renameSlots (σ : Equiv.Perm Letter) (parent : Kind) :
    List (Field × Slot) → List (Field × Slot)
  | [] => []
  | (field, slot) :: rest => (field, slot.rename σ parent field) :: renameSlots σ parent rest
termination_by structural ss => ss

def renameNodes (σ : Equiv.Perm Letter) : List Node → List Node
  | [] => []
  | n :: rest => n.rename σ :: renameNodes σ rest
termination_by structural ns => ns

end

theorem renameNodes_eq_map (ns : List Node) : renameNodes σ ns = ns.map (Node.rename σ) := by
  induction ns with
  | nil => rfl
  | cons n rest ih => rw [renameNodes, ih, List.map_cons]

theorem lookup_renameSlots
    (parent : Kind) (slots : List (Field × Slot)) (field : Field) :
    (renameSlots σ parent slots).lookup field =
      (slots.lookup field).map (Slot.rename σ parent field) := by
  induction slots with
  | nil => rfl
  | cons entry rest ih =>
      obtain ⟨other, slot⟩ := entry
      rw [renameSlots, List.lookup_cons, List.lookup_cons, ih]
      by_cases hfield : field = other
      · simp [hfield]
      · simp [beq_false_of_ne hfield]

namespace Node

@[simp] theorem kind_rename (n : Node) : (n.rename σ).kind = n.kind := by
  obtain ⟨kind, span, slots⟩ := n
  rw [rename]
  split <;> rfl

@[simp] theorem span_rename (n : Node) : (n.rename σ).span = n.span := by
  obtain ⟨kind, span, slots⟩ := n
  rw [rename]
  split <;> rfl

theorem rename_of_wildcardName
    {n : Node} {name : String}
    (hname : n.wildcardName? = some name) :
    n.rename σ = n.set .name (.text (renameName σ name)) := by
  obtain ⟨kind, span, slots⟩ := n
  simp only [rename, hname, set, kind_mk, span_mk, slots_mk]

theorem rename_of_not_wildcard {n : Node} (hname : n.wildcardName? = none) :
    n.rename σ = .mk n.kind n.span (renameSlots σ n.kind n.slots) := by
  obtain ⟨kind, span, slots⟩ := n
  simp only [rename, hname, kind_mk, span_mk, slots_mk]

theorem slot?_rename {n : Node} (hname : n.wildcardName? = none) (field : Field) :
    (n.rename σ).slot? field = (n.slot? field).map (Slot.rename σ n.kind field) := by
  rw [rename_of_not_wildcard hname, slot?, slots_mk, lookup_renameSlots, slot?]

theorem scalar?_rename {n : Node} (hname : n.wildcardName? = none) (field : Field) :
    (n.rename σ).scalar? field = n.scalar? field := by
  rw [scalar?, slot?_rename hname, scalar?]
  rcases n.slot? field with _ | slot
  · rfl
  · cases slot with
    | node c =>
        by_cases hcallee : isDirectCallee n.kind field c = true <;> simp [Slot.rename, hcallee]
    | _ => rfl

@[simp] theorem name?_rename (n : Node) : (n.rename σ).name? = n.name?.map (renameName σ) := by
  cases hname : n.wildcardName? with
  | some name =>
      obtain ⟨hself, -⟩ := Option.filter_eq_some_iff.mp hname
      have hkind : n.kind = .identifier := by
        by_contra hkind
        simp [name?, hkind] at hself
      rw [rename_of_wildcardName hname, hself]
      simp [name?, text?, scalar?, slot?, set, lookup_setSlot, hkind, Slot.text]
  | none =>
      have hsame : (n.rename σ).name? = n.name? := by
        rw [name?, kind_rename, text?, scalar?_rename hname, name?, text?]
      rw [hsame]
      cases hself : n.name? with
      | none => rfl
      | some name =>
          have hnot := Option.filter_eq_none_iff.mp hname name hself
          rw [Option.map_some, renameName_of_not_wildcard (by simpa using hnot)]

@[simp] theorem wildcardName?_rename (n : Node) :
    (n.rename σ).wildcardName? = n.wildcardName?.map (renameName σ) := by
  rw [wildcardName?, name?_rename, wildcardName?]
  cases n.name? with
  | none => rfl
  | some name =>
      simp only [Option.map_some, Option.filter_some, isWildcardName_renameName]
      split <;> rfl

theorem child?_rename
    {n : Node}
    (hname : n.wildcardName? = none)
    {field : Field}
    (hfield : field ≠ .callee) :
    (n.rename σ).child? field = (n.child? field).map (Node.rename σ) := by
  rw [child?, slot?_rename hname, child?]
  rcases n.slot? field with _ | slot
  · rfl
  · cases slot with
    | node c => simp [Slot.rename, isDirectCallee, hfield]
    | _ => rfl

theorem list_rename {n : Node} (hname : n.wildcardName? = none) (field : Field) :
    (n.rename σ).list field = (n.list field).map (Node.rename σ) := by
  rw [list, slot?_rename hname, list]
  rcases n.slot? field with _ | slot
  · rfl
  · cases slot with
    | node c =>
        by_cases hcallee : isDirectCallee n.kind field c = true <;> simp [Slot.rename, hcallee]
    | list ns => exact renameNodes_eq_map ns
    | _ => rfl

@[simp] theorem restName?_rename (n : Node) :
    (n.rename σ).restName? = n.restName?.map (renameName σ) := by
  rw [restName?, kind_rename, restName?]
  split
  next hkind =>
    have hname : n.wildcardName? = none := by
      rcases hkind with hkind | hkind <;> simp [wildcardName?, name?, hkind]
    rw [child?_rename hname (by decide)]
    cases n.child? .argument <;> simp
  next => rfl

end Node

@[simp] theorem isDirectCallee_rename (parent : Kind) (field : Field) (n : Node) :
    isDirectCallee parent field (n.rename σ) = isDirectCallee parent field n := by
  rw [isDirectCallee, n.kind_rename, isDirectCallee]

/-! ## Wildcards of a pattern -/

def WildcardUse.rename (σ : Equiv.Perm Letter) : WildcardUse → WildcardUse
  | value name => .value (renameName σ name)
  | rest name => .rest (renameName σ name)
  | misplacedRest name => .misplacedRest (renameName σ name)

mutual

theorem Node.wildcardUses_rename :
    (n : Node) →
      (n.rename σ).wildcardUses = n.wildcardUses.map (WildcardUse.rename σ)
  | .mk kind span slots => by
    have hrenamed := (Node.mk kind span slots).wildcardName?_rename (σ := σ)
    cases hname : (Node.mk kind span slots).wildcardName? with
    | some name =>
        rw [hname, Option.map_some] at hrenamed
        rw [Node.wildcardUses_of_wildcardName hrenamed, Node.wildcardUses_of_wildcardName hname]
        rfl
    | none =>
        rw [hname, Option.map_none] at hrenamed
        rw [Node.wildcardUses_eq hrenamed, Node.wildcardUses_eq hname,
          Node.rename_of_not_wildcard hname]
        exact wildcardUsesInSlots_rename kind slots
termination_by structural n => n

theorem Slot.wildcardUses_rename (parent : Kind) (field : Field) :
    (slot : Slot) →
      (slot.rename σ parent field).wildcardUses parent field =
        (slot.wildcardUses parent field).map (WildcardUse.rename σ)
  | .node n => by
    rw [Slot.rename, Slot.wildcardUses]
    by_cases hcallee : isDirectCallee parent field n = true
    · simp [hcallee, Slot.wildcardUses]
    · simp [hcallee, Slot.wildcardUses, n.wildcardUses_rename]
  | .list ns => wildcardUsesInNodes_rename (parent.acceptsRest field) ns
  | .absent => rfl
  | .scalar _ => rfl
termination_by structural slot => slot

theorem wildcardUsesInSlots_rename (parent : Kind) :
    (slots : List (Field × Slot)) →
      wildcardUsesInSlots parent (renameSlots σ parent slots) =
        (wildcardUsesInSlots parent slots).map (WildcardUse.rename σ)
  | [] => rfl
  | (field, slot) :: rest => by
    rw [renameSlots, wildcardUsesInSlots, wildcardUsesInSlots, List.map_append,
      slot.wildcardUses_rename parent field, wildcardUsesInSlots_rename parent rest]
termination_by structural slots => slots

theorem wildcardUsesInNodes_rename (acceptsRest : Bool) :
    (ns : List Node) →
      wildcardUsesInNodes acceptsRest (renameNodes σ ns) =
        (wildcardUsesInNodes acceptsRest ns).map (WildcardUse.rename σ)
  | [] => rfl
  | n :: rest => by
    have hempty : (renameNodes σ rest).isEmpty = rest.isEmpty := by
      rw [renameNodes_eq_map, List.isEmpty_map]
    rw [renameNodes, wildcardUsesInNodes, wildcardUsesInNodes, List.map_append,
      wildcardUsesInNodes_rename acceptsRest rest, hempty, n.restName?_rename,
      n.wildcardUses_rename]
    congr 1
    cases acceptsRest with
    | false => rfl
    | true =>
        cases n.restName? with
        | none => rfl
        | some name => cases rest.isEmpty <;> rfl
termination_by structural ns => ns

end

mutual

theorem Node.wildcardNames_rename :
    (n : Node) →
      (n.rename σ).wildcardNames = n.wildcardNames.map (renameName σ)
  | .mk kind span slots => by
    have hrenamed := (Node.mk kind span slots).wildcardName?_rename (σ := σ)
    cases hname : (Node.mk kind span slots).wildcardName? with
    | some name =>
        rw [hname, Option.map_some] at hrenamed
        rw [Node.wildcardNames_of_wildcardName hrenamed, Node.wildcardNames_of_wildcardName hname]
        rfl
    | none =>
        rw [hname, Option.map_none] at hrenamed
        rw [Node.wildcardNames_eq hrenamed, Node.wildcardNames_eq hname,
          Node.rename_of_not_wildcard hname]
        exact wildcardNamesInSlots_rename kind slots
termination_by structural n => n

theorem Slot.wildcardNames_rename (parent : Kind) (field : Field) :
    (slot : Slot) →
      (slot.rename σ parent field).wildcardNames parent field =
        (slot.wildcardNames parent field).map (renameName σ)
  | .node n => by
    rw [Slot.rename, Slot.wildcardNames]
    by_cases hcallee : isDirectCallee parent field n = true
    · simp [hcallee, Slot.wildcardNames]
    · simp [hcallee, Slot.wildcardNames, n.wildcardNames_rename]
  | .list ns => wildcardNamesInNodes_rename ns
  | .absent => rfl
  | .scalar _ => rfl
termination_by structural slot => slot

theorem wildcardNamesInSlots_rename (parent : Kind) :
    (slots : List (Field × Slot)) →
      wildcardNamesInSlots parent (renameSlots σ parent slots) =
        (wildcardNamesInSlots parent slots).map (renameName σ)
  | [] => rfl
  | (field, slot) :: rest => by
    rw [renameSlots, wildcardNamesInSlots, wildcardNamesInSlots, List.map_append,
      slot.wildcardNames_rename parent field, wildcardNamesInSlots_rename parent rest]
termination_by structural slots => slots

theorem wildcardNamesInNodes_rename :
    (ns : List Node) →
      wildcardNamesInNodes (renameNodes σ ns) = (wildcardNamesInNodes ns).map (renameName σ)
  | [] => rfl
  | n :: rest => by
    rw [renameNodes, wildcardNamesInNodes, wildcardNamesInNodes, List.map_append,
      n.wildcardNames_rename, wildcardNamesInNodes_rename rest]
termination_by structural ns => ns

end

namespace Wildcards

def rename (σ : Equiv.Perm Letter) (w : Wildcards) : Wildcards :=
  ⟨w.roles.map fun entry => (renameName σ entry.1, entry.2)⟩

@[simp] theorem get?_rename (w : Wildcards) (name : String) :
    (w.rename σ).get? (renameName σ name) = w.get? name :=
  lookup_map_renameName w.roles name

@[simp] theorem contains_rename (w : Wildcards) (name : String) :
    (w.rename σ).contains (renameName σ name) = w.contains name := by
  rw [contains, get?_rename, contains]

theorem declare_rename
    {w w' : Wildcards} {name : String} {role : WildcardRole}
    (hdeclare : w.declare name role = .ok w') :
    (w.rename σ).declare (renameName σ name) role = .ok (w'.rename σ) := by
  rw [declare, get?_rename]
  rw [declare] at hdeclare
  cases hrole : w.get? name with
  | none =>
      rw [hrole] at hdeclare
      cases hdeclare
      simp [rename]
  | some found =>
      simp only [hrole] at hdeclare ⊢
      split_ifs at hdeclare with hsame
      cases hdeclare
      exact if_pos hsame

theorem addUse_rename
    {w w' : Wildcards} {use : WildcardUse}
    (hadd : w.addUse use = .ok w') :
    (w.rename σ).addUse (use.rename σ) = .ok (w'.rename σ) := by
  cases use with
  | value name => exact declare_rename hadd
  | rest name => exact declare_rename hadd
  | misplacedRest name => cases hadd

theorem foldlM_addUse_rename
    {uses : List WildcardUse} {w w' : Wildcards}
    (hfold : uses.foldlM addUse w = .ok w') :
    (uses.map (WildcardUse.rename σ)).foldlM addUse (w.rename σ) = .ok (w'.rename σ) := by
  induction uses generalizing w with
  | nil =>
      cases hfold
      rfl
  | cons use rest ih =>
      rw [List.foldlM_cons] at hfold
      obtain ⟨mid, hmid, hrest⟩ := bind_eq_ok_iff.mp hfold
      rw [List.map_cons, List.foldlM_cons, addUse_rename hmid]
      exact ih hrest

theorem collect_rename
    {nodes : List Node} {w : Wildcards}
    (hcollect : collect nodes = .ok w) :
    collect (renameNodes σ nodes) = .ok (w.rename σ) := by
  rw [collect, wildcardUsesInNodes_rename]
  exact foldlM_addUse_rename hcollect

theorem valueName?_rename (w : Wildcards) (n : Node) :
    (w.rename σ).valueName? (n.rename σ) = (w.valueName? n).map (renameName σ) := by
  rw [valueName?, n.name?_rename, valueName?]
  cases n.name? with
  | none => rfl
  | some name =>
      simp only [Option.map_some, Option.filter_some, get?_rename]
      split <;> rfl

theorem restName?_rename (w : Wildcards) (n : Node) :
    (w.rename σ).restName? (n.rename σ) = (w.restName? n).map (renameName σ) := by
  rw [restName?, n.restName?_rename, restName?]
  cases n.restName? with
  | none => rfl
  | some name =>
      simp only [Option.map_some, Option.filter_some, get?_rename]
      split <;> rfl

end Wildcards

/-! ## Unifying -/

namespace Bindings

def rename (σ : Equiv.Perm Letter) (bs : Bindings) : Bindings :=
  bs.map fun entry => (renameName σ entry.1, entry.2)

@[simp] theorem rename_nil : rename σ [] = [] := rfl

@[simp] theorem get?_rename (bs : Bindings) (name : String) :
    (bs.rename σ).get? (renameName σ name) = bs.get? name :=
  lookup_map_renameName bs name

theorem bind_rename (bs : Bindings) (name : String) (b : Binding) :
    (bs.rename σ).bind (renameName σ name) b = (bs.bind name b).map id (rename σ) := by
  rw [bind, get?_rename, bind]
  cases bs.get? name with
  | none => simp [rename]
  | some earlier => rfl

end Bindings

theorem Node.unify_of_valueName
    {w : Wildcards} {p : Node} {name : String}
    (hname : w.valueName? p = some name)
    (c : Node) (bs : Bindings) :
    p.unify w c bs = bs.bind name (.node c) := by
  obtain ⟨kind, span, slots⟩ := p
  simp only [Node.unify, hname]

theorem Node.unify_eq
    {w : Wildcards} {p : Node}
    (hname : w.valueName? p = none)
    (c : Node) (bs : Bindings) :
    p.unify w c bs =
      if p.kind ≠ c.kind then (false, bs)
      else if p.kind = .blockStatement ∧ (p.list .body).isEmpty then (true, bs)
      else unifySlots w p.kind p.slots c bs := by
  obtain ⟨kind, span, slots⟩ := p
  simp only [Node.unify, hname]
  rfl

theorem restName?_getLast_rename (w : Wildcards) (ps : List Node) :
    (renameNodes σ ps).getLast?.bind (w.rename σ).restName? =
      (ps.getLast?.bind w.restName?).map (renameName σ) := by
  rw [renameNodes_eq_map, List.getLast?_map]
  cases ps.getLast? with
  | none => rfl
  | some last => exact w.restName?_rename last

theorem lengthsFit_rename (tail : Option String) (ps cs : List Node) :
    lengthsFit (tail.map (renameName σ)) (renameNodes σ ps) cs = lengthsFit tail ps cs := by
  cases tail <;> simp [lengthsFit, renameNodes_eq_map]

mutual

theorem Node.unify_rename {w : Wildcards} :
    (p c : Node) → (bs : Bindings) →
      (∀ use ∈ p.wildcardUses, w.Admits use) →
      (p.rename σ).unify (w.rename σ) c (bs.rename σ) =
        (p.unify w c bs).map id (Bindings.rename σ)
  | .mk kind span slots, c, bs, hadmits => by
    have hrenamed := w.valueName?_rename (σ := σ) (.mk kind span slots)
    cases hvalue : w.valueName? (.mk kind span slots) with
    | some name =>
        rw [hvalue, Option.map_some] at hrenamed
        rw [Node.unify_of_valueName hrenamed, Node.unify_of_valueName hvalue]
        exact Bindings.bind_rename bs name (.node c)
    | none =>
        have hname := Wildcards.wildcardName?_eq_none hadmits hvalue
        rw [hvalue, Option.map_none] at hrenamed
        rw [Node.wildcardUses_eq hname] at hadmits
        rw [Node.unify_eq hrenamed, Node.unify_eq hvalue, Node.list_rename hname, List.isEmpty_map,
          Node.kind_rename, Node.rename_of_not_wildcard hname]
        split
        · rfl
        · split
          · rfl
          · exact unifySlots_rename kind slots c bs hadmits
termination_by structural p => p

theorem Slot.unify_rename {w : Wildcards} (parent : Kind) (field : Field) :
    (p c : Slot) →
      (bs : Bindings) → (∀ use ∈ p.wildcardUses parent field, w.Admits use) →
      (p.rename σ parent field).unify (w.rename σ) parent field c (bs.rename σ) =
        (p.unify w parent field c bs).map id (Bindings.rename σ)
  | .node p, .node c, bs, hadmits => by
    rw [Slot.wildcardUses] at hadmits
    by_cases hcallee : isDirectCallee parent field p = true
    · rw [Slot.rename, if_pos hcallee, Slot.unify, Slot.unify, if_pos hcallee, if_pos hcallee]
      rfl
    · rw [if_neg hcallee] at hadmits
      rw [Slot.rename, if_neg hcallee, Slot.unify, Slot.unify, isDirectCallee_rename,
        if_neg hcallee, if_neg hcallee]
      exact p.unify_rename c bs hadmits
  | .list ps, .list cs, bs, hadmits => by
    rw [Slot.rename, Slot.unify, Slot.unify, restName?_getLast_rename, lengthsFit_rename]
    split
    · exact unifyNodes_rename _ (parent.acceptsRest field) ps cs bs hadmits rfl
    · rfl
  | .node p, .list _, _, _ | .node p, .absent, _, _ | .node p, .scalar _, _, _ => by
    by_cases hcallee : isDirectCallee parent field p = true <;>
      simp [Slot.rename, hcallee, Slot.unify]
  | .list _, .node _, _, _ | .list _, .absent, _, _ | .list _, .scalar _, _, _ => rfl
  | .absent, .node _, _, _ | .absent, .list _, _, _ | .absent, .absent, _, _
  | .absent, .scalar _, _, _ => rfl
  | .scalar _, .node _, _, _ | .scalar _, .list _, _, _ | .scalar _, .absent, _, _
  | .scalar _, .scalar _, _, _ => rfl
termination_by structural p => p

theorem unifySlots_rename {w : Wildcards} (parent : Kind) :
    (slots : List (Field × Slot)) →
      (c : Node) → (bs : Bindings) →
      (∀ use ∈ wildcardUsesInSlots parent slots, w.Admits use) →
      unifySlots (w.rename σ) parent (renameSlots σ parent slots) c (bs.rename σ) =
        (unifySlots w parent slots c bs).map id (Bindings.rename σ)
  | [], _, _, _ => rfl
  | (field, slot) :: rest, c, bs, hadmits => by
    rw [wildcardUsesInSlots, List.forall_mem_append] at hadmits
    rw [renameSlots, unifySlots, unifySlots, slot.unify_rename parent field _ _ hadmits.1]
    exact andThen_map fun bs => unifySlots_rename parent rest c bs hadmits.2
termination_by structural slots => slots

theorem unifyNodes_rename {w : Wildcards} (tail : Option String) (acceptsRest : Bool) :
    (ps cs : List Node) → (bs : Bindings) →
    (∀ use ∈ wildcardUsesInNodes acceptsRest ps, w.Admits use) →
    tail = ps.getLast?.bind w.restName? →
    unifyNodes (w.rename σ) (tail.map (renameName σ)) (renameNodes σ ps) cs (bs.rename σ) =
      (unifyNodes w tail ps cs bs).map id (Bindings.rename σ)
  | [], _, _, _, _ => by rw [renameNodes, unifyNodes, unifyNodes]; rfl
  | p :: ps, cs, bs, hadmits, htail => by
    by_cases hlast : ps = [] → tail = none
    · -- `p` is not the rest of its list, so it counts with its own wildcards
      obtain ⟨hrest, htail⟩ := restName?_getLast_of_cons htail hlast
      have hrenamed : renameNodes σ ps = [] → tail.map (renameName σ) = none := by
        simpa [renameNodes_eq_map] using hlast
      rw [wildcardUsesInNodes_cons_of_admits hadmits hrest, List.forall_mem_append] at hadmits
      cases cs with
      | nil =>
          rw [renameNodes, unifyNodes_cons_nil _ hrenamed, unifyNodes_cons_nil w hlast]
          rfl
      | cons c cs =>
          rw [renameNodes, unifyNodes_cons_cons _ hrenamed, unifyNodes_cons_cons w hlast,
            p.unify_rename c bs hadmits.1]
          exact andThen_map fun bs => unifyNodes_rename tail acceptsRest ps cs bs hadmits.2 htail
    · obtain ⟨rfl, htailsome⟩ := Classical.not_imp.mp hlast
      obtain ⟨name, rfl⟩ := Option.ne_none_iff_exists'.mp htailsome
      exact Bindings.bind_rename bs name (.rest cs)
termination_by structural ps => ps

end

theorem unifySequence_rename
    {w : Wildcards} {ps : List Node}
    (hadmits : ∀ use ∈ wildcardUsesInNodes false ps, w.Admits use)
    (cs : List Node) (bs : Bindings) :
    unifySequence (w.rename σ) (renameNodes σ ps) cs (bs.rename σ) =
      (unifySequence w ps cs bs).map id (Bindings.rename σ) := by
  have hlength : (renameNodes σ ps).length = ps.length := by
    rw [renameNodes_eq_map, List.length_map]
  rw [unifySequence, unifySequence, hlength]
  split
  · exact unifyNodes_rename none false ps cs bs hadmits (restName?_getLast_eq_none hadmits).symm
  · rfl

/-! ## Patterns and rules -/

def Fragment.rename (σ : Equiv.Perm Letter) : Fragment → Fragment
  | expression root => .expression (root.rename σ)
  | statements body => .statements (renameNodes σ body)

theorem Fragment.nodes_rename (fragment : Fragment) :
    (fragment.rename σ).nodes = renameNodes σ fragment.nodes := by
  cases fragment <;> rfl

def Pattern.rename (σ : Equiv.Perm Letter) (p : Pattern) : Pattern :=
  ⟨p.fragment.rename σ, p.wildcards.rename σ⟩

def Rule.rename (σ : Equiv.Perm Letter) (rule : Rule) : Rule :=
  ⟨rule.pattern.rename σ, rule.template.rename σ⟩

def Match.rename (σ : Equiv.Perm Letter) (m : Match) : Match :=
  { m with bindings := m.bindings.rename σ }

namespace Pattern

theorem isEligible_rename (p : Pattern) (site : Option Site) (n : Node) :
    (p.rename σ).isEligible site n = p.isEligible site n := by
  obtain ⟨fragment, w⟩ := p
  cases fragment with
  | expression root =>
      simp only [isEligible, rename, Fragment.rename, w.valueName?_rename, Option.isSome_map,
        root.kind_rename]
  | statements body =>
      simp only [isEligible, rename, Fragment.rename, renameNodes_eq_map, List.length_map]

variable {p : Pattern}

theorem fitNode?_rename
    (hcollect : Wildcards.collect p.fragment.nodes = .ok p.wildcards)
    (n : Node) :
    (p.rename σ).fitNode? n = (p.fitNode? n).map (Bindings.rename σ) := by
  have hadmits := Wildcards.admits_of_collect hcollect
  have hhead : (p.rename σ).fragment.nodes.head? =
      p.fragment.nodes.head?.map (Node.rename σ) := by
    rw [rename, Fragment.nodes_rename, renameNodes_eq_map, List.head?_map]
  cases hroot : p.fragment.nodes.head? with
  | none => simp [fitNode?, hhead, hroot]
  | some root =>
      have hunify := root.unify_rename (σ := σ) n [] fun use huse =>
        hadmits use (mem_wildcardUsesInNodes_false_iff.mpr
          ⟨root, List.mem_of_mem_head? hroot, huse⟩)
      rw [Bindings.rename_nil] at hunify
      simp only [fitNode?, hhead, hroot, Option.map_some, Option.bind_eq_bind, Option.bind_some]
      rw [show (p.rename σ).wildcards = p.wildcards.rename σ from rfl, hunify]
      simp only [Prod.map_fst, Prod.map_snd, id_eq]
      split <;> rfl

end Pattern

end Graft
