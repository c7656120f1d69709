import Graft.Proofs.Occurrences
import Graft.Proofs.TemplateNames

/-!
# Where wildcards occur

The role of a wildcard is a matter of where its name stands: as the `x` of a `...x` that ends an
argument or parameter list it stands for the rest of the list, as a directly called name it stands
for itself, and anywhere else for one node.  A pattern is classified in one pass that meets the
uses one after the other.  The pass fails exactly if the places of the names contradict each other,
in whatever order they are met, and otherwise gives each name the role of its places.
-/

namespace Graft

/-- The argument lists of calls and the parameter lists of functions. -/
def Kind.ListsArguments (kind : Kind) (field : Field) : Prop :=
  (kind = .callExpression ∨ kind = .newExpression) ∧ field = .arguments ∨
    kind.isFunction = true ∧ field = .params

instance (kind : Kind) (field : Field) : Decidable (kind.ListsArguments field) :=
  inferInstanceAs (Decidable (_ ∨ _))

theorem Kind.acceptsRest_iff {kind : Kind} {field : Field} :
    kind.acceptsRest field = true ↔ kind.ListsArguments field := by
  constructor
  · intro haccepts
    unfold Kind.acceptsRest at haccepts
    split at haccepts <;> simp_all [Kind.ListsArguments, Kind.isFunction]
  · rintro (⟨rfl | rfl, rfl⟩ | ⟨hfunction, rfl⟩)
    · rfl
    · rfl
    · unfold Kind.isFunction at hfunction
      split at hfunction <;> first | rfl | simp at hfunction

namespace Occurrence

/-- The node is what a call or `new` calls. -/
def isCallee (o : Occurrence) : Bool :=
  match o.above with
  | (parent, ⟨.callee, none⟩) :: _ =>
    parent.kind = .callExpression || parent.kind = .newExpression
  | _ => false

/-- The node is the `x` of a `...x` in an argument or parameter list: the position of `...x` in
the list, and the length of the list. -/
def spreadItem? (o : Occurrence) : Option (Nat × Nat) :=
  match o.above with
  | (spread, ⟨.argument, none⟩) :: (owner, ⟨field, some index⟩) :: _ =>
    if (spread.kind = .spreadElement ∨ spread.kind = .restElement) ∧
        owner.kind.ListsArguments field then
      some (index, (owner.list field).length)
    else none
  | _ => none

/-- A `...x` that ends its list. -/
def IsTrailingRest (o : Occurrence) (name : String) : Prop :=
  o.node.wildcardName? = some name ∧ ∃ index, o.spreadItem? = some (index, index + 1)

/-- A `...x` with items behind it. -/
def IsMisplacedRest (o : Occurrence) (name : String) : Prop :=
  o.node.wildcardName? = some name ∧
    ∃ index length, o.spreadItem? = some (index, length) ∧ index + 1 < length

/-- A name that is not called and is not the rest of a list. -/
def IsValue (o : Occurrence) (name : String) : Prop :=
  o.node.wildcardName? = some name ∧ o.isCallee = false ∧ ¬ o.IsTrailingRest name

/-- The use that a name in this place is put to, if it is not called. -/
def useOf (o : Occurrence) (name : String) : WildcardUse :=
  match o.spreadItem? with
  | some (index, length) => if index + 1 = length then .rest name else .misplacedRest name
  | none => .value name

def wildcardUse? (o : Occurrence) : Option WildcardUse :=
  if o.isCallee then none else o.node.wildcardName?.map o.useOf

end Occurrence

/-- The node has the fields of its kind, and a name is a text. -/
structure Node.HasShape (n : Node) : Prop where
  fields : n.HasKindFields
  name : n.kind = .identifier → n.name?.isSome = true

instance (n : Node) : Decidable n.HasShape :=
  decidable_of_iff (n.HasKindFields ∧ (n.kind = .identifier → n.name?.isSome = true))
    ⟨fun h => ⟨h.1, h.2⟩, fun h => ⟨h.fields, h.name⟩⟩

/-! ## The use of a node and its place -/

theorem Node.kind_eq_of_wildcardName
    {n : Node} {name : String}
    (hname : n.wildcardName? = some name) :
    n.kind = .identifier :=
  (Node.name?_eq_some_iff.mp (Option.filter_eq_some_iff.mp hname).1).1

theorem Node.wildcardName?_eq_none_of_kind {n : Node} (hkind : n.kind ≠ .identifier) :
    n.wildcardName? = none := by
  simp [Node.wildcardName?, Node.name?, hkind]

/-- A name has nothing below it. -/
theorem Node.HasShape.occurrences_eq
    {n : Node}
    (hshape : n.HasShape) (hkind : n.kind = .identifier)
    (above : List (Node × Step)) :
    n.occurrences above = [⟨n, above⟩] := by
  obtain ⟨name, hname⟩ := Option.isSome_iff_exists.mp (hshape.name hkind)
  have hslots : n.slots = [(.name, .text name)] :=
    hshape.fields.slots_eq_singleton (by rw [hkind]; rfl) (Node.name?_eq_some_iff.mp hname).2
  rw [Node.occurrences_eq, hslots]
  rfl

namespace Occurrence

theorem isCallee_cons {n parent : Node} {field : Field} {above : List (Node × Step)} :
    isCallee ⟨n, (parent, ⟨field, none⟩) :: above⟩ = true ↔
      (parent.kind = .callExpression ∨ parent.kind = .newExpression) ∧ field = .callee := by
  unfold isCallee
  split
  · simp_all
  · simp_all

theorem wildcardUse?_eq_none {o : Occurrence} (hname : o.node.wildcardName? = none) :
    o.wildcardUse? = none := by
  simp [wildcardUse?, hname]

/-- The place of the node does not change how the names at it and directly in it are used. -/
structure Ordinary (o : Occurrence) : Prop where
  notCallee : o.isCallee = true → o.node.kind ≠ .identifier
  notSpread : ∀ name, o.node.wildcardName? = some name → o.spreadItem? = none
  notRest : ∀ name, o.node.restName? = some name →
    ∀ c, spreadItem? ⟨c, (o.node, ⟨.argument, none⟩) :: o.above⟩ = none

end Occurrence

/-- The names below a node are used as their places say. -/
def Node.UsedByPlace (n : Node) : Prop :=
  ∀ above, Occurrence.Ordinary ⟨n, above⟩ →
    (n.occurrences above).filterMap Occurrence.wildcardUse? = n.wildcardUses

section

variable {parent : Node} {above : List (Node × Step)} {field : Field}

/-- A single child, unless it is a called name, is in an ordinary place if its parent is. -/
theorem Occurrence.Ordinary.child
    {c : Node}
    (hparent : Occurrence.Ordinary ⟨parent, above⟩)
    (hshape : parent.HasShape)
    (hslot : (field, .node c) ∈ parent.slots)
    (hcallee : isDirectCallee parent.kind field c = false) :
    Occurrence.Ordinary ⟨c, (parent, ⟨field, none⟩) :: above⟩ := by
  refine ⟨fun hcalled => ?_, fun name hname => ?_, fun name hname c => rfl⟩
  · obtain ⟨hkind, rfl⟩ := Occurrence.isCallee_cons.mp hcalled
    intro hidentifier
    rcases hkind with hkind | hkind <;> simp [isDirectCallee, hkind, hidentifier] at hcallee
  · by_cases hrest : field = .argument ∧
        (parent.kind = .spreadElement ∨ parent.kind = .restElement)
    · obtain ⟨rfl, hkind⟩ := hrest
      have hchild : parent.child? .argument = some c :=
        Node.child?_eq_some_iff.mpr ((Node.slot?_eq_some_iff hshape.fields.nodup).mpr hslot)
      exact hparent.notRest name (Node.restName?_eq_some_iff.mpr ⟨hkind, c, hchild, hname⟩) c
    · unfold Occurrence.spreadItem?
      split
      · simp_all
      · rfl

/-- An item of a list is in an ordinary place, unless it is a `...x` that is the rest of the
list. -/
theorem Occurrence.ordinary_item
    {n : Node} {position : Nat}
    (hitem : parent.kind.acceptsRest field = true → n.restName? = none) :
    Occurrence.Ordinary ⟨n, (parent, ⟨field, some position⟩) :: above⟩ := by
  refine ⟨fun hcalled => ?_, fun name hname => ?_, fun name hname c => ?_⟩
  · unfold Occurrence.isCallee at hcalled
    split at hcalled <;> simp_all
  · unfold Occurrence.spreadItem?
    split <;> simp_all
  · have haccepts : ¬ parent.kind.ListsArguments field := by
      rw [← Kind.acceptsRest_iff]
      intro haccepts
      rw [hitem haccepts] at hname
      cases hname
    simp [Occurrence.spreadItem?, haccepts]

/-- The only use in a `...x` that is an item of an argument or parameter list. -/
theorem filterMap_occurrences_of_restName
    {n : Node} {name : String} {position : Nat}
    (hshape : n.All Node.HasShape)
    (hname : n.restName? = some name)
    (haccepts : parent.kind.acceptsRest field = true) :
    (n.occurrences ((parent, ⟨field, some position⟩) :: above)).filterMap
        Occurrence.wildcardUse? =
      [if position + 1 = (parent.list field).length then .rest name else .misplacedRest name] := by
  obtain ⟨hkind, c, hchild, hc⟩ := Node.restName?_eq_some_iff.mp hname
  have hslot := Node.child?_eq_some_iff.mp hchild
  have hslots : n.slots = [(.argument, .node c)] :=
    hshape.here.fields.slots_eq_singleton (by rcases hkind with h | h <;> rw [h] <;> rfl) hslot
  have hshapec : c.All Node.HasShape :=
    hshape.child (Node.mem_slots_of_slot? hslot) (by simp [Slot.children])
  have hnone : n.wildcardName? = none :=
    Node.wildcardName?_eq_none_of_kind (by rcases hkind with h | h <;> simp [h])
  have hbelow : occurrencesInSlots n ((parent, ⟨field, some position⟩) :: above) n.slots =
      [⟨c, (n, ⟨.argument, none⟩) :: (parent, ⟨field, some position⟩) :: above⟩] := by
    rw [hslots, occurrencesInSlots, Slot.occurrences,
      hshapec.here.occurrences_eq (Node.kind_eq_of_wildcardName hc)]
    rfl
  have huse : Occurrence.wildcardUse?
      ⟨c, (n, ⟨.argument, none⟩) :: (parent, ⟨field, some position⟩) :: above⟩ =
      some (if position + 1 = (parent.list field).length then .rest name
        else .misplacedRest name) := by
    have hlists := Kind.acceptsRest_iff.mp haccepts
    simp [Occurrence.wildcardUse?, Occurrence.useOf, Occurrence.isCallee, Occurrence.spreadItem?,
      hc, hkind, hlists]
  rw [Node.occurrences_eq, hbelow, List.filterMap_cons_none (Occurrence.wildcardUse?_eq_none hnone),
    List.filterMap_cons_some huse, List.filterMap_nil]

theorem filterMap_occurrencesInNodes
    {ns : List Node} {position : Nat}
    (hlength : (parent.list field).length = position + ns.length)
    (hshape : ∀ n ∈ ns, n.All Node.HasShape)
    (hns : ∀ n ∈ ns, n.UsedByPlace) :
    (occurrencesInNodes parent above field position ns).filterMap Occurrence.wildcardUse? =
      wildcardUsesInNodes (parent.kind.acceptsRest field) ns := by
  induction ns generalizing position with
  | nil => rfl
  | cons n rest ih =>
      have hafter : (parent.list field).length = position + 1 + rest.length := by
        rw [hlength, List.length_cons]
        omega
      have hrest := ih hafter (fun m hm => hshape m (by simp [hm]))
        (fun m hm => hns m (by simp [hm]))
      rw [occurrencesInNodes, wildcardUsesInNodes, List.filterMap_append, hrest]
      congr 1
      split
      next name hname =>
        obtain ⟨haccepts, hname⟩ :
            parent.kind.acceptsRest field = true ∧ n.restName? = some name := by
          split_ifs at hname with haccepts
          exact ⟨haccepts, hname⟩
        have hlast : position + 1 = (parent.list field).length ↔ rest.isEmpty = true := by
          rw [hlength, List.isEmpty_iff, ← List.length_eq_zero_iff, List.length_cons]
          omega
        rw [filterMap_occurrences_of_restName (hshape n (by simp)) hname haccepts]
        simp only [hlast]
      next hnone =>
        refine hns n (by simp) _ (Occurrence.ordinary_item fun haccepts => ?_)
        rwa [if_pos haccepts] at hnone

end

theorem filterMap_occurrencesInSlots
    {n : Node} {above : List (Node × Step)} {slots : List (Field × Slot)}
    (hslots : ∀ entry ∈ slots, (entry.2.occurrences n above entry.1).filterMap
      Occurrence.wildcardUse? = entry.2.wildcardUses n.kind entry.1) :
    (occurrencesInSlots n above slots).filterMap Occurrence.wildcardUse? =
      wildcardUsesInSlots n.kind slots := by
  induction slots with
  | nil => rfl
  | cons entry rest ih =>
      rw [occurrencesInSlots, wildcardUsesInSlots, List.filterMap_append, hslots entry (by simp),
        ih fun other hother => hslots other (by simp [hother])]

theorem Node.usedByPlace {n : Node} (hshape : n.All Node.HasShape) : n.UsedByPlace := by
  induction n using Node.childInduction with
  | hparent n ih =>
      intro above hordinary
      cases hname : n.wildcardName? with
      | some name =>
          have hkind := Node.kind_eq_of_wildcardName hname
          have hcallee : Occurrence.isCallee ⟨n, above⟩ = false :=
            Bool.eq_false_iff.mpr fun hcalled => hordinary.notCallee hcalled hkind
          have huse : Occurrence.wildcardUse? ⟨n, above⟩ = some (.value name) := by
            simp [Occurrence.wildcardUse?, Occurrence.useOf, hcallee, hname,
              hordinary.notSpread name hname]
          rw [hshape.here.occurrences_eq hkind, Node.wildcardUses_of_wildcardName hname,
            List.filterMap_cons_some huse, List.filterMap_nil]
      | none =>
          rw [Node.occurrences_eq, Node.wildcardUses_eq hname,
            List.filterMap_cons_none (Occurrence.wildcardUse?_eq_none hname)]
          refine filterMap_occurrencesInSlots fun entry hentry => ?_
          have hchildren : ∀ c ∈ entry.2.children, c.All Node.HasShape ∧ c.UsedByPlace :=
            fun c hc => ⟨hshape.child hentry hc, ih entry hentry c hc (hshape.child hentry hc)⟩
          obtain ⟨field, slot⟩ := entry
          cases slot with
          | node c =>
              obtain ⟨hshapec, hc⟩ := hchildren c (by simp [Slot.children])
              rw [Slot.occurrences, Slot.wildcardUses]
              split_ifs with hcallee
              · have hdirect := hcallee
                simp only [isDirectCallee, Bool.and_eq_true, Bool.or_eq_true, beq_iff_eq] at hdirect
                have hcalled : Occurrence.isCallee ⟨c, (n, ⟨field, none⟩) :: above⟩ = true :=
                  Occurrence.isCallee_cons.mpr hdirect.1
                rw [hshapec.here.occurrences_eq hdirect.2]
                simp [Occurrence.wildcardUse?, hcalled]
              · exact hc _ (hordinary.child hshape.here hentry (by simpa using hcallee))
          | list cs =>
              have hlist : n.list field = cs := by
                simp [Node.list, (Node.slot?_eq_some_iff hshape.here.fields.nodup).mpr hentry]
              exact filterMap_occurrencesInNodes (by simp [hlist]) (fun c hc => (hchildren c hc).1)
                fun c hc => (hchildren c hc).2
          | absent => rfl
          | scalar s => rfl

/-- The nodes of several trees. -/
def occurrencesIn (nodes : List Node) : List Occurrence := nodes.flatMap (Node.occurrences [])

/-- One after the other, the uses that a pattern is classified by are the uses by place. -/
theorem filterMap_occurrencesIn {nodes : List Node} (hshape : ∀ n ∈ nodes, n.All Node.HasShape) :
    (occurrencesIn nodes).filterMap Occurrence.wildcardUse? = wildcardUsesInNodes false nodes := by
  induction nodes with
  | nil => rfl
  | cons n rest ih =>
      have hrest := ih fun m hm => hshape m (by simp [hm])
      have hordinary : Occurrence.Ordinary ⟨n, []⟩ :=
        ⟨fun hcalled => by simp [Occurrence.isCallee] at hcalled, fun _ _ => rfl, fun _ _ _ => rfl⟩
      simp only [occurrencesIn, List.flatMap_cons, List.filterMap_append] at hrest ⊢
      rw [hrest, Node.usedByPlace (hshape n (by simp)) [] hordinary]
      simp [wildcardUsesInNodes]

/-! ## Uses that agree -/

theorem Wildcards.exists_addUse
    {w : Wildcards} {use : WildcardUse}
    (hplaced : ∀ name, use ≠ .misplacedRest name) (hw : w.get? use.name = none ∨ w.Admits use) :
    ∃ w', w.addUse use = .ok w' := by
  cases use with
  | misplacedRest name => exact absurd rfl (hplaced name)
  | _ name =>
      simp only [WildcardUse.name, Wildcards.Admits] at hw
      rcases hw with hrole | hrole <;> simp [Wildcards.addUse, Wildcards.declare, hrole]

/-- Uses in which no name is used in two ways are taken in one after the other. -/
theorem Wildcards.exists_foldlM_addUse
    {uses : List WildcardUse} {w : Wildcards}
    (hplaced : ∀ use ∈ uses, ∀ name, use ≠ .misplacedRest name)
    (hagree : ∀ use ∈ uses, ∀ other ∈ uses, use.name = other.name → use = other)
    (hw : ∀ use ∈ uses, w.get? use.name = none ∨ w.Admits use) :
    ∃ w', uses.foldlM Wildcards.addUse w = .ok w' := by
  induction uses generalizing w with
  | nil => exact ⟨w, rfl⟩
  | cons use rest ih =>
      obtain ⟨mid, hmid⟩ := Wildcards.exists_addUse (hplaced use (by simp)) (hw use (by simp))
      obtain ⟨hadmits, hkept⟩ := Wildcards.addUse_eq_ok hmid
      have hrest : ∀ other ∈ rest, mid.get? other.name = none ∨ mid.Admits other := by
        intro other hother
        by_cases hname : other.name = use.name
        · rw [hagree other (by simp [hother]) use (by simp) hname]
          exact .inr hadmits
        · have hsame := hkept other.name hname
          rcases hw other (by simp [hother]) with hnone | hold
          · exact .inl (hsame.trans hnone)
          · right
            cases other with
            | misplacedRest name => exact hold.elim
            | _ name => exact hsame.trans hold
      obtain ⟨w', hw'⟩ := ih (fun other hother => hplaced other (by simp [hother]))
        (fun one hone other hother => hagree one (by simp [hone]) other (by simp [hother])) hrest
      refine ⟨w', ?_⟩
      rw [List.foldlM_cons]
      exact bind_eq_ok_iff.mpr ⟨mid, hmid, hw'⟩

/-! ## Uses by place -/

namespace Occurrence

variable {o : Occurrence} {name : String}

theorem wildcardUse?_eq_some_iff {use : WildcardUse} :
    o.wildcardUse? = some use ↔
      o.isCallee = false ∧ ∃ name, o.node.wildcardName? = some name ∧ o.useOf name = use := by
  unfold wildcardUse?
  split_ifs with hcallee
  · simp [hcallee]
  · simp [hcallee, Option.map_eq_some_iff]

theorem isCallee_eq_false_of_spreadItem? {item : Nat × Nat} (hitem : o.spreadItem? = some item) :
    o.isCallee = false := by
  unfold spreadItem? at hitem
  split at hitem
  next habove => simp [isCallee, habove]
  next => cases hitem

/-- The positions in the steps above are positions in lists. -/
def InLists (o : Occurrence) : Prop :=
  ∀ entry ∈ o.above, ∀ index, entry.2.index = some index →
    index < (entry.1.list entry.2.field).length

theorem inLists_of_mem {n : Node} (hshape : n.All Node.HasShape) :
    ∀ o ∈ n.occurrences [], o.InLists := by
  have hboth : ∀ o ∈ n.occurrences [], o.node.All Node.HasShape ∧ o.InLists := by
    refine Node.occurrences_induction ⟨hshape, by simp [InLists]⟩ ?_
    rintro o step c ⟨hshape, hlists⟩ hc
    refine ⟨hshape.holdsAt hc, fun entry hentry index hindex => ?_⟩
    rcases List.mem_cons.mp hentry with rfl | hentry
    · obtain ⟨slot, hslot, hchild⟩ := hc
      rw [hindex] at hchild
      have hfound := (Node.slot?_eq_some_iff hshape.here.fields.nodup).mpr hslot
      cases slot with
      | list items =>
          simp only [Node.list, hfound]
          exact (List.getElem?_eq_some_iff.mp hchild).1
      | _ => cases hchild
    · exact hlists entry hentry index hindex
  exact fun o ho => (hboth o ho).2

theorem InLists.index_lt
    (hlists : o.InLists)
    {index length : Nat}
    (hitem : o.spreadItem? = some (index, length)) :
    index < length := by
  unfold spreadItem? at hitem
  split at hitem
  next spread owner field position above habove =>
    split_ifs at hitem
    cases hitem
    exact hlists (owner, ⟨field, some index⟩) (by simp [habove]) index rfl
  next => cases hitem

/-- A use is made in a place of its kind. -/
theorem InLists.place_of_use
    (hlists : o.InLists)
    {use : WildcardUse}
    (huse : o.wildcardUse? = some use) :
    ∃ name, use = .rest name ∧ o.IsTrailingRest name ∨
      use = .misplacedRest name ∧ o.IsMisplacedRest name ∨ use = .value name ∧ o.IsValue name := by
  obtain ⟨hcallee, name, hname, rfl⟩ := wildcardUse?_eq_some_iff.mp huse
  refine ⟨name, ?_⟩
  cases hitem : o.spreadItem? with
  | none =>
      refine .inr (.inr ⟨by simp [useOf, hitem], hname, hcallee, ?_⟩)
      rintro ⟨-, index, htrailing⟩
      rw [hitem] at htrailing
      cases htrailing
  | some item =>
      obtain ⟨index, length⟩ := item
      by_cases hlast : index + 1 = length
      · exact .inl ⟨by simp [useOf, hitem, hlast], hname, index, hlast ▸ hitem⟩
      · have hlt := hlists.index_lt hitem
        exact .inr (.inl ⟨by simp [useOf, hitem, hlast], hname, index, length, hitem, by omega⟩)

theorem IsTrailingRest.wildcardUse? (htrailing : o.IsTrailingRest name) :
    o.wildcardUse? = some (.rest name) := by
  obtain ⟨hname, index, hitem⟩ := htrailing
  exact wildcardUse?_eq_some_iff.mpr
    ⟨isCallee_eq_false_of_spreadItem? hitem, name, hname, by simp [useOf, hitem]⟩

theorem IsMisplacedRest.wildcardUse? (hmisplaced : o.IsMisplacedRest name) :
    o.wildcardUse? = some (.misplacedRest name) := by
  obtain ⟨hname, index, length, hitem, hbehind⟩ := hmisplaced
  exact wildcardUse?_eq_some_iff.mpr
    ⟨isCallee_eq_false_of_spreadItem? hitem, name, hname,
      by simp [useOf, hitem, Nat.ne_of_lt hbehind]⟩

/-- A name that is neither called nor the rest of a list is used as a value, unless it is a
misplaced rest. -/
theorem IsValue.wildcardUse?
    (hvalue : o.IsValue name) (hplaced : ¬ o.IsMisplacedRest name) (hlists : o.InLists) :
    o.wildcardUse? = some (.value name) := by
  obtain ⟨hname, hcallee, htrailing⟩ := hvalue
  have hitem : o.spreadItem? = none := by
    cases hitem : o.spreadItem? with
    | none => rfl
    | some item =>
        obtain ⟨index, length⟩ := item
        have hlt := hlists.index_lt hitem
        by_cases hlast : index + 1 = length
        · exact absurd ⟨hname, index, hlast ▸ hitem⟩ htrailing
        · exact absurd ⟨hname, index, length, hitem, by omega⟩ hplaced
  exact wildcardUse?_eq_some_iff.mpr ⟨hcallee, name, hname, by simp [useOf, hitem]⟩

end Occurrence

/-! ## Roles -/

section

variable {nodes : List Node}

theorem inLists_of_mem_occurrencesIn (hshape : ∀ n ∈ nodes, n.All Node.HasShape) :
    ∀ o ∈ occurrencesIn nodes, o.InLists := by
  intro o ho
  obtain ⟨n, hn, hmem⟩ := List.mem_flatMap.mp ho
  exact Occurrence.inLists_of_mem (hshape n hn) o hmem

theorem mem_wildcardUsesInNodes_iff_place
    (hshape : ∀ n ∈ nodes, n.All Node.HasShape)
    {use : WildcardUse} :
    use ∈ wildcardUsesInNodes false nodes ↔
      ∃ o ∈ occurrencesIn nodes, o.wildcardUse? = some use := by
  rw [← filterMap_occurrencesIn hshape, List.mem_filterMap]

namespace Wildcards

variable {w : Wildcards}

theorem admits_of_place
    (hshape : ∀ n ∈ nodes, n.All Node.HasShape) (hcollect : Wildcards.collect nodes = .ok w)
    {o : Occurrence} {use : WildcardUse}
    (ho : o ∈ occurrencesIn nodes) (huse : o.wildcardUse? = some use) :
    w.Admits use :=
  Wildcards.admits_of_collect hcollect use
    ((mem_wildcardUsesInNodes_iff_place hshape).mpr ⟨o, ho, huse⟩)

theorem not_isMisplacedRest_of_collect
    (hshape : ∀ n ∈ nodes, n.All Node.HasShape) (hcollect : Wildcards.collect nodes = .ok w) :
    ∀ o ∈ occurrencesIn nodes, ∀ name, ¬ o.IsMisplacedRest name :=
  fun _ ho _ hmisplaced => admits_of_place hshape hcollect ho hmisplaced.wildcardUse?

/-- A name that has a role stands in a place of that role. -/
theorem exists_place_of_role
    (hshape : ∀ n ∈ nodes, n.All Node.HasShape) (hcollect : Wildcards.collect nodes = .ok w)
    {name : String} {role : WildcardRole}
    (hrole : w.get? name = some role) :
    ∃ o ∈ occurrencesIn nodes,
      role = .rest ∧ o.IsTrailingRest name ∨ role = .value ∧ o.IsValue name := by
  obtain ⟨use, huse, rfl⟩ := Wildcards.exists_use_of_collect hcollect hrole
  obtain ⟨o, ho, hplace⟩ := (mem_wildcardUsesInNodes_iff_place hshape).mp huse
  have hadmits := admits_of_place hshape hcollect ho hplace
  refine ⟨o, ho, ?_⟩
  obtain ⟨name, ⟨rfl, htrailing⟩ | ⟨rfl, -⟩ | ⟨rfl, hvalue⟩⟩ :=
    (inLists_of_mem_occurrencesIn hshape o ho).place_of_use hplace
  · exact .inl ⟨Option.some.inj (hrole.symm.trans hadmits), htrailing⟩
  · exact hadmits.elim
  · exact .inr ⟨Option.some.inj (hrole.symm.trans hadmits), hvalue⟩

theorem get?_eq_rest_iff
    (hshape : ∀ n ∈ nodes, n.All Node.HasShape) (hcollect : Wildcards.collect nodes = .ok w)
    {name : String} :
    w.get? name = some .rest ↔ ∃ o ∈ occurrencesIn nodes, o.IsTrailingRest name := by
  constructor
  · intro hrole
    obtain ⟨o, ho, ⟨-, htrailing⟩ | ⟨hvalue, -⟩⟩ := exists_place_of_role hshape hcollect hrole
    · exact ⟨o, ho, htrailing⟩
    · cases hvalue
  · rintro ⟨o, ho, htrailing⟩
    exact admits_of_place hshape hcollect ho htrailing.wildcardUse?

theorem get?_eq_value_iff
    (hshape : ∀ n ∈ nodes, n.All Node.HasShape) (hcollect : Wildcards.collect nodes = .ok w)
    {name : String} :
    w.get? name = some .value ↔ ∃ o ∈ occurrencesIn nodes, o.IsValue name := by
  constructor
  · intro hrole
    obtain ⟨o, ho, ⟨hrest, -⟩ | ⟨-, hvalue⟩⟩ := exists_place_of_role hshape hcollect hrole
    · cases hrest
    · exact ⟨o, ho, hvalue⟩
  · rintro ⟨o, ho, hvalue⟩
    exact admits_of_place hshape hcollect ho (hvalue.wildcardUse?
      (not_isMisplacedRest_of_collect hshape hcollect o ho name)
      (inLists_of_mem_occurrencesIn hshape o ho))

/-- Places that do not contradict each other give every name one use, so the order in which they
are met does not matter. -/
theorem exists_collect_of_places
    (hshape : ∀ n ∈ nodes, n.All Node.HasShape)
    (hplaced : ∀ o ∈ occurrencesIn nodes, ∀ name, ¬ o.IsMisplacedRest name)
    (hagree : ∀ name, ¬ ((∃ o ∈ occurrencesIn nodes, o.IsTrailingRest name) ∧
      ∃ o ∈ occurrencesIn nodes, o.IsValue name)) :
    ∃ w, Wildcards.collect nodes = .ok w := by
  have hplace : ∀ use ∈ wildcardUsesInNodes false nodes, ∃ o ∈ occurrencesIn nodes, ∃ name,
      use = .rest name ∧ o.IsTrailingRest name ∨ use = .value name ∧ o.IsValue name := by
    intro use huse
    obtain ⟨o, ho, hplace⟩ := (mem_wildcardUsesInNodes_iff_place hshape).mp huse
    obtain ⟨name, hrest | ⟨-, hmisplaced⟩ | hvalue⟩ :=
      (inLists_of_mem_occurrencesIn hshape o ho).place_of_use hplace
    · exact ⟨o, ho, name, .inl hrest⟩
    · exact absurd hmisplaced (hplaced o ho name)
    · exact ⟨o, ho, name, .inr hvalue⟩
  refine Wildcards.exists_foldlM_addUse ?_ ?_ fun use _ => .inl rfl
  · intro use huse name
    obtain ⟨-, -, other, ⟨rfl, -⟩ | ⟨rfl, -⟩⟩ := hplace use huse <;> simp
  · intro use huse other hother hname
    obtain ⟨o, ho, name, ⟨rfl, hplaceo⟩ | ⟨rfl, hplaceo⟩⟩ := hplace use huse
    · obtain ⟨o', ho', name', ⟨rfl, -⟩ | ⟨rfl, hvalue⟩⟩ := hplace other hother
      · exact congrArg WildcardUse.rest hname
      · cases (hname : name = name')
        exact absurd ⟨⟨o, ho, hplaceo⟩, o', ho', hvalue⟩ (hagree name)
    · obtain ⟨o', ho', name', ⟨rfl, hrest⟩ | ⟨rfl, -⟩⟩ := hplace other hother
      · cases (hname : name = name')
        exact absurd ⟨⟨o', ho', hrest⟩, o, ho, hplaceo⟩ (hagree name)
      · exact congrArg WildcardUse.value hname

end Wildcards

end

/-- Classifying the wildcards of nodes succeeds exactly if no `...x` has items behind it in an
argument or parameter list and no name is both the rest of such a list and something else.  The
roles are then those of the places, and the names are those of a template of the same nodes, none
of which can be undeclared. -/
theorem Wildcards.collect_classifies
    {nodes : List Node}
    (hshape : ∀ n ∈ nodes, n.All Node.HasShape) :
    ((∃ w, Wildcards.collect nodes = .ok w) ↔
      (∀ o ∈ occurrencesIn nodes, ∀ name, ¬ o.IsMisplacedRest name) ∧
        ∀ name, ¬ ((∃ o ∈ occurrencesIn nodes, o.IsTrailingRest name) ∧
          ∃ o ∈ occurrencesIn nodes, o.IsValue name)) ∧
      ∀ w, Wildcards.collect nodes = .ok w →
        (∀ name, w.get? name = some .rest ↔
          ∃ o ∈ occurrencesIn nodes, o.IsTrailingRest name) ∧
        (∀ name, w.get? name = some .value ↔ ∃ o ∈ occurrencesIn nodes, o.IsValue name) ∧
        (∀ name, w.contains name = true ↔ name ∈ referencedNames nodes) ∧
        ∀ template, (∀ name ∈ referencedNames template, name ∈ referencedNames nodes) →
          (referencedNames template).find? (fun name => !w.contains name) = none := by
  refine ⟨⟨?_, fun h => Wildcards.exists_collect_of_places hshape h.1 h.2⟩, fun w hcollect => ?_⟩
  · rintro ⟨w, hcollect⟩
    refine ⟨Wildcards.not_isMisplacedRest_of_collect hshape hcollect, ?_⟩
    rintro name ⟨htrailing, hvalue⟩
    have hrest := (Wildcards.get?_eq_rest_iff hshape hcollect).mpr htrailing
    rw [(Wildcards.get?_eq_value_iff hshape hcollect).mpr hvalue] at hrest
    cases hrest
  · have hfields : ∀ n ∈ nodes, n.All Node.HasKindFields :=
      fun n hn => (hshape n hn).imp fun _ h => h.fields
    have hnames : ∀ name, w.contains name = true ↔ name ∈ referencedNames nodes :=
      fun name => Wildcards.contains_iff_mem_referencedNames hcollect hfields
    refine ⟨fun name => Wildcards.get?_eq_rest_iff hshape hcollect,
      fun name => Wildcards.get?_eq_value_iff hshape hcollect, hnames, fun template hsub => ?_⟩
    rw [List.find?_eq_none]
    intro name hname
    simp [(hnames name).mpr (hsub name hname)]

/-- In `f(a, ...b)` the called `f` has no role. -/
theorem Wildcards.collect_classifies_call :
    ∃ (nodes : List Node) (w : Wildcards), (∀ n ∈ nodes, n.All Node.HasShape) ∧
      Wildcards.collect nodes = .ok w ∧ w.contains "f" = false ∧
      w.get? "b" = some .rest ∧ (∃ o ∈ occurrencesIn nodes, o.IsTrailingRest "b") ∧
      w.get? "a" = some .value ∧ ∃ o ∈ occurrencesIn nodes, o.IsValue "a" := by
  let rest : Node := .mk .spreadElement {} [(.argument, .node (.identifier "b"))]
  let call : Node := .mk .callExpression {} [(.callee, .node (.identifier "f")),
    (.arguments, .list [.identifier "a", rest]), (.optional, .flag false)]
  let w : Wildcards := ⟨[("a", .value), ("b", .rest)]⟩
  have hshape : ∀ n ∈ [call], n.All Node.HasShape := by decide
  have hcollect : Wildcards.collect [call] = .ok w := by decide
  obtain ⟨hrest, hvalue, -⟩ := (Wildcards.collect_classifies hshape).2 w hcollect
  have hb : w.get? "b" = some .rest := by decide
  have ha : w.get? "a" = some .value := by decide
  exact ⟨[call], w, hshape, hcollect, by decide, hb, (hrest "b").mp hb, ha, (hvalue "a").mp ha⟩

end Graft
