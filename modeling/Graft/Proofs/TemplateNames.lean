import Graft.Proofs.Shape
import Graft.Proofs.WildcardRoles

/-!
# The names of a template

A template is searched for names without regard to their roles, a pattern is searched for uses of
names in their roles.  On nodes with the fields of their kinds both searches meet the same names in
the same order, so a pattern declares exactly the names that it refers to when it is read as a
template.
-/

namespace Graft

theorem Node.wildcardNames_of_wildcardName
    {n : Node} {name : String}
    (hname : n.wildcardName? = some name) :
    n.wildcardNames = [name] := by
  obtain ⟨kind, span, slots⟩ := n
  simp only [Node.wildcardNames, hname]

theorem Node.wildcardNames_eq {n : Node} (hname : n.wildcardName? = none) :
    n.wildcardNames = wildcardNamesInSlots n.kind n.slots := by
  obtain ⟨kind, span, slots⟩ := n
  simp only [Node.wildcardNames, hname, Node.kind_mk, Node.slots_mk]

/-- The only name in `...x` is that of the wildcard. -/
theorem Node.wildcardNames_of_restName
    {n : Node} {name : String}
    (hfields : n.HasKindFields) (hname : n.restName? = some name) :
    n.wildcardNames = [name] := by
  obtain ⟨hkind, c, hchild, hc⟩ := Node.restName?_eq_some_iff.mp hname
  have hargument : n.kind.fields = [.argument] := by
    rcases hkind with hkind | hkind <;> rw [hkind] <;> rfl
  have hslots : n.slots = [(.argument, .node c)] :=
    hfields.slots_eq_singleton hargument (Node.child?_eq_some_iff.mp hchild)
  have hidentifier : n.wildcardName? = none := by
    rcases hkind with hkind | hkind <;> simp [Node.wildcardName?, Node.name?, hkind]
  have hcallee : isDirectCallee n.kind .argument c = false := by
    simp [isDirectCallee]
  rw [Node.wildcardNames_eq hidentifier, hslots]
  simp [wildcardNamesInSlots, Slot.wildcardNames, hcallee, Node.wildcardNames_of_wildcardName hc]

theorem map_name_wildcardUsesInNodes
    {ns : List Node}
    (acceptsRest : Bool)
    (hfields : ∀ n ∈ ns, n.HasKindFields)
    (hns : ∀ n ∈ ns, n.wildcardUses.map WildcardUse.name = n.wildcardNames) :
    (wildcardUsesInNodes acceptsRest ns).map WildcardUse.name = wildcardNamesInNodes ns := by
  induction ns with
  | nil => rfl
  | cons n rest ih =>
      have hrest := ih (fun m hm => hfields m (by simp [hm])) (fun m hm => hns m (by simp [hm]))
      rw [wildcardUsesInNodes, wildcardNamesInNodes, List.map_append, hrest]
      congr 1
      split
      next found hfound =>
        have hname : n.restName? = some found := by
          cases acceptsRest <;> simp_all
        rw [Node.wildcardNames_of_restName (hfields n (by simp)) hname]
        split_ifs <;> rfl
      next => exact hns n (by simp)

theorem map_name_wildcardUsesInSlots
    {kind : Kind} {slots : List (Field × Slot)}
    (hslots : ∀ entry ∈ slots, (entry.2.wildcardUses kind entry.1).map WildcardUse.name =
      entry.2.wildcardNames kind entry.1) :
    (wildcardUsesInSlots kind slots).map WildcardUse.name = wildcardNamesInSlots kind slots := by
  induction slots with
  | nil => rfl
  | cons entry rest ih =>
      rw [wildcardUsesInSlots, wildcardNamesInSlots, List.map_append,
        hslots entry (by simp), ih fun other hother => hslots other (by simp [hother])]

/-- The names below a node are those of its uses. -/
theorem Node.map_name_wildcardUses {n : Node} (hfields : n.All Node.HasKindFields) :
    n.wildcardUses.map WildcardUse.name = n.wildcardNames := by
  induction n using Node.childInduction with
  | hparent n ih =>
      cases hname : n.wildcardName? with
      | some name =>
          rw [Node.wildcardUses_of_wildcardName hname, Node.wildcardNames_of_wildcardName hname]
          rfl
      | none =>
          rw [Node.wildcardUses_eq hname, Node.wildcardNames_eq hname]
          refine map_name_wildcardUsesInSlots fun entry hentry => ?_
          have hchildren : ∀ c ∈ entry.2.children,
              c.wildcardUses.map WildcardUse.name = c.wildcardNames :=
            fun c hc => ih entry hentry c hc (hfields.child hentry hc)
          obtain ⟨field, slot⟩ := entry
          cases slot with
          | node c =>
              simp only [Slot.wildcardUses, Slot.wildcardNames]
              split_ifs
              · rfl
              · exact hchildren c (by simp [Slot.children])
          | list cs =>
              exact map_name_wildcardUsesInNodes _
                (fun c hc => (hfields.child hentry hc).here) hchildren
          | absent => rfl
          | scalar s => rfl

theorem Wildcards.contains_of_admits
    {w : Wildcards} {use : WildcardUse}
    (hadmits : w.Admits use) :
    w.contains use.name = true := by
  cases use with
  | value name => exact Option.isSome_of_eq_some hadmits
  | rest name => exact Option.isSome_of_eq_some hadmits
  | misplacedRest name => exact hadmits.elim

/-- A pattern declares exactly the names that it refers to when it is read as a template. -/
theorem Wildcards.contains_iff_mem_referencedNames
    {nodes : List Node} {w : Wildcards} {name : String}
    (hcollect : Wildcards.collect nodes = .ok w) (hfields : ∀ n ∈ nodes, n.All Node.HasKindFields) :
    w.contains name = true ↔ name ∈ referencedNames nodes := by
  have hnames := map_name_wildcardUsesInNodes false (fun n hn => (hfields n hn).here)
    fun n hn => Node.map_name_wildcardUses (hfields n hn)
  rw [referencedNames, List.mem_eraseDups, ← hnames, List.mem_map]
  constructor
  · intro hcontains
    obtain ⟨role, hrole⟩ := Option.isSome_iff_exists.mp hcontains
    exact Wildcards.exists_use_of_collect hcollect hrole
  · rintro ⟨use, huse, rfl⟩
    exact Wildcards.contains_of_admits (Wildcards.admits_of_collect hcollect use huse)

end Graft
