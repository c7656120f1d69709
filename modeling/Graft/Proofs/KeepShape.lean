import Graft.Proofs.ClosedTemplate
import Mathlib.Logic.Relation

/-!
# Edits keep the shape of a tree

A tree is well formed when every node has the fields of its kind and every slot for a name or a
binding holds what it may hold.  Rules keep a tree well formed, and so does every single
replacement by well-formed nodes, as long as the statements that are put into a list may stand
there: a run of nodes is replaced without asking the node that holds it.
-/

namespace Graft

structure Node.FormedHere (n : Node) : Prop where
  fields : n.HasKindFields
  names : n.NamesFit

instance (n : Node) : Decidable n.FormedHere :=
  decidable_of_iff (n.HasKindFields ∧ n.NamesFit)
    ⟨fun h => ⟨h.1, h.2⟩, fun h => ⟨h.fields, h.names⟩⟩

/-- A well-formed tree. -/
def Node.Formed (root : Node) : Prop := root.All Node.FormedHere

instance (root : Node) : Decidable root.Formed :=
  inferInstanceAs (Decidable (root.All Node.FormedHere))

/-- The child may stand in the slot of the node. -/
def Node.Takes (n : Node) (field : Field) (c : Node) : Prop :=
  fitsSlot n.kind (n.flag .computed) field c.kind = true

theorem Node.formed_iff {n : Node} :
    n.Formed ↔ n.HasKindFields ∧
      ∀ entry ∈ n.slots, ∀ c ∈ entry.2.children, n.Takes entry.1 c ∧ c.Formed := by
  unfold Node.Formed
  rw [Node.all_iff]
  constructor
  · intro hn
    exact ⟨hn.1.fields, fun entry hentry c hc =>
      ⟨hn.1.names entry hentry c hc, hn.2 entry hentry c hc⟩⟩
  · intro hn
    exact ⟨⟨hn.1, fun entry hentry c hc => (hn.2 entry hentry c hc).1⟩,
      fun entry hentry c hc => (hn.2 entry hentry c hc).2⟩

theorem Node.Formed.child
    {n c : Node} {field : Field} {slot : Slot}
    (hn : n.Formed) (hslot : n.slot? field = some slot) (hc : c ∈ slot.children) :
    n.Takes field c ∧ c.Formed :=
  (Node.formed_iff.mp hn).2 _ (Node.mem_slots_of_slot? hslot) c hc

/-- A statement may stand wherever lists of statements stand, whatever the node that holds the
list has become. -/
theorem Node.takes_of_hasStatementList
    {kind : Kind} {field : Field}
    (hlist : kind.hasStatementList field = true)
    (n c : Node) :
    n.Takes field c := by
  have hfield : field = .body ∨ field = .consequent := by
    unfold Kind.hasStatementList at hlist
    split at hlist <;> simp_all
  unfold Node.Takes fitsSlot
  rcases hfield with rfl | rfl
  · cases n.kind <;> rfl
  · cases n.kind <;> rfl

/-! ## Changing one slot -/

theorem fields_setSlot
    {field : Field} {slots : List (Field × Slot)}
    (hfield : field ∈ slots.map Prod.fst)
    (slot : Slot) :
    (Node.setSlot field slot slots).map Prod.fst = slots.map Prod.fst := by
  induction slots with
  | nil => simp at hfield
  | cons entry rest ih =>
      obtain ⟨other, found⟩ := entry
      rw [Node.setSlot]
      by_cases hother : other = field
      · rw [if_pos hother, List.map_cons, List.map_cons]
      · have hrest : field ∈ rest.map Prod.fst := by
          rcases List.mem_cons.mp hfield with hhead | hrest
          · exact absurd hhead.symm hother
          · exact hrest
        rw [if_neg hother, List.map_cons, List.map_cons, ih hrest]

theorem mem_setSlot
    {field : Field} {slot : Slot} {slots : List (Field × Slot)} {entry : Field × Slot}
    (hentry : entry ∈ Node.setSlot field slot slots) :
    entry = (field, slot) ∨ entry ∈ slots := by
  induction slots with
  | nil => exact Or.inl (List.mem_singleton.mp hentry)
  | cons first rest ih =>
      obtain ⟨other, found⟩ := first
      rw [Node.setSlot] at hentry
      by_cases hother : other = field
      · rw [if_pos hother, List.mem_cons, hother] at hentry
        exact hentry.imp id (List.mem_cons_of_mem _)
      · rw [if_neg hother, List.mem_cons] at hentry
        rcases hentry with rfl | hrest
        · exact Or.inr List.mem_cons_self
        · exact (ih hrest).imp id (List.mem_cons_of_mem _)

/-- Flags are read from scalars, so putting nodes in the place of nodes keeps them. -/
theorem Node.flag_set
    {n : Node} {field : Field} {old new : Slot}
    (hslot : n.slot? field = some old) (hset : new.isSet = old.isSet)
    (flag : Field) :
    (n.set field new).flag flag = n.flag flag := by
  rw [Node.flag_eq_isSet, Node.flag_eq_isSet]
  have hlookup : (n.set field new).slot? flag =
      if flag = field then some new else n.slot? flag :=
    lookup_setSlot field flag new n.slots
  by_cases hflag : flag = field
  · rw [hlookup, if_pos hflag, hflag, hslot, Option.getD_some, Option.getD_some, hset]
  · rw [hlookup, if_neg hflag]

theorem Node.Formed.set
    {n : Node} {field : Field} {old new : Slot}
    (hn : n.Formed)
    (hslot : n.slot? field = some old)
    (hset : new.isSet = old.isSet)
    (hnew : ∀ c ∈ new.children, n.Takes field c ∧ c.Formed) :
    (n.set field new).Formed := by
  obtain ⟨hfields, hchildren⟩ := Node.formed_iff.mp hn
  have htakes : ∀ other c, (n.set field new).Takes other c ↔ n.Takes other c := by
    intro other c
    unfold Node.Takes
    rw [Node.flag_set hslot hset]
    exact Iff.rfl
  have hfield : field ∈ n.slots.map Prod.fst :=
    List.mem_map.mpr ⟨_, Node.mem_slots_of_slot? hslot, rfl⟩
  refine Node.formed_iff.mpr ⟨?_, ?_⟩
  · have hsame : (n.set field new).fields = n.fields := fields_setSlot hfield new
    unfold Node.HasKindFields
    rw [hsame]
    exact hfields
  · intro entry hentry c hc
    rw [htakes]
    rcases mem_setSlot hentry with rfl | hold
    · exact hnew c hc
    · exact hchildren entry hold c hc

/-! ## Changing a slot below a path -/

theorem Slot.setChild?_eq_some
    {slot slot' : Slot} {index : Option Nat} {child : Node}
    (hset : slot.setChild? index child = some slot') :
    slot'.isSet = slot.isSet ∧ ∀ c ∈ slot'.children, c = child ∨ c ∈ slot.children := by
  cases slot <;> cases index <;> simp only [Slot.setChild?, reduceCtorEq] at hset
  case node.none old =>
    cases hset
    exact ⟨rfl, fun c hc => Or.inl (List.mem_singleton.mp hc)⟩
  case list.some ns i =>
    split_ifs at hset
    cases hset
    exact ⟨rfl, fun c hc => (List.mem_or_eq_of_mem_set hc).symm⟩

theorem Slot.setRun?_eq_some
    {slot slot' : Slot} {start length : Nat} {body : List Node}
    (hset : slot.setRun? start length body = some slot') :
    slot'.isSet = slot.isSet ∧ ∀ c ∈ slot'.children, c ∈ body ∨ c ∈ slot.children := by
  cases slot <;> simp only [Slot.setRun?, reduceCtorEq] at hset
  case list ns =>
    split_ifs at hset
    cases hset
    refine ⟨rfl, ?_⟩
    intro c hc
    simp only [Slot.children, List.mem_append] at hc ⊢
    rcases hc with (htake | hbody) | hdrop
    · exact Or.inr (List.mem_of_mem_take htake)
    · exact Or.inl hbody
    · exact Or.inr (List.mem_of_mem_drop hdrop)

/-- The nodes on the way to an edited slot keep their kinds, so each still fits its parent. -/
theorem Node.Formed.editSlot?
    {field : Field} {edit : Slot → Option Slot} {path : Path} {n n' : Node}
    (hn : n.Formed)
    (hedit : ∀ target slot slot', Path.resolve? path n = some target →
      target.slot? field = some slot → edit slot = some slot' →
      slot'.isSet = slot.isSet ∧ ∀ c ∈ slot'.children, target.Takes field c ∧ c.Formed)
    (hsome : n.editSlot? field edit path = some n') :
    n'.kind = n.kind ∧ n'.Formed := by
  induction path generalizing n n' with
  | nil =>
      simp only [Node.editSlot?, Option.bind_eq_bind, Option.bind_eq_some_iff] at hsome
      obtain ⟨slot, hslot, slot', hslot', hn'⟩ := hsome
      cases hn'
      obtain ⟨hset, hchildren⟩ := hedit n slot slot' rfl hslot hslot'
      exact ⟨rfl, hn.set hslot hset hchildren⟩
  | cons step rest ih =>
      simp only [Node.editSlot?, Option.bind_eq_bind, Option.bind_eq_some_iff] at hsome
      obtain ⟨slot, hslot, child, hchild, child', hchild', slot', hslot', hn'⟩ := hsome
      cases hn'
      have hmem := Slot.mem_children_of_child? hchild
      obtain ⟨htakes, hformed⟩ := hn.child hslot hmem
      have hbelow : ∀ target slot slot', Path.resolve? rest child = some target →
          target.slot? field = some slot → edit slot = some slot' →
          slot'.isSet = slot.isSet ∧
            ∀ c ∈ slot'.children, target.Takes field c ∧ c.Formed := by
        intro target found found' htarget
        apply hedit
        simp only [Path.resolve?, hslot, hchild, Option.bind_eq_bind, Option.bind_some, htarget]
      obtain ⟨hkind, hformed'⟩ := ih hformed hbelow hchild'
      obtain ⟨hset, hchildren⟩ := Slot.setChild?_eq_some hslot'
      refine ⟨rfl, hn.set hslot hset ?_⟩
      intro c hc
      rcases hchildren c hc with rfl | hold
      · unfold Node.Takes at htakes ⊢
        rw [hkind]
        exact ⟨htakes, hformed'⟩
      · exact hn.child hslot hold

/-! ## Replacements -/

def Replacement.nodes : Replacement → List Node
  | node n => [n]
  | statements body => body

def Replacement.Formed (r : Replacement) : Prop := ∀ n ∈ r.nodes, n.Formed

theorem Node.Formed.asStatement {n : Node} (hn : n.Formed) : n.asStatement.Formed := by
  unfold Node.asStatement
  split_ifs
  · exact hn
  · refine Node.formed_iff.mpr ⟨List.Perm.refl _, ?_⟩
    intro entry hentry c hc
    obtain rfl := List.mem_singleton.mp hentry
    obtain rfl := List.mem_singleton.mp hc
    exact ⟨rfl, hn⟩

theorem Replacement.Formed.toNode
    {r : Replacement} {statementExpected : Bool} {n : Node}
    (hr : r.Formed) (hnode : r.toNode statementExpected = .ok n) :
    n.Formed := by
  unfold Replacement.toNode at hnode
  cases r with
  | node found =>
      have hfound : found.Formed := hr found (by simp [Replacement.nodes])
      cases hnode
      split_ifs
      · exact hfound.asStatement
      · exact hfound
  | statements body =>
      dsimp only at hnode
      split_ifs at hnode
      · split at hnode
        next only =>
          cases hnode
          exact hr n (by simp [Replacement.nodes])
        next => cases hnode
      · split at hnode
        next only =>
          have honly : only.Formed := hr only (by simp [Replacement.nodes])
          split_ifs at hnode
          split at hnode
          next found hfound =>
            cases hnode
            exact (honly.child (Node.child?_eq_some_iff.mp hfound)
              (by simp [Slot.children])).2
          next => cases hnode
        next => cases hnode

theorem Replacement.Formed.toStatements {r : Replacement} (hr : r.Formed) :
    ∀ n ∈ r.toStatements, n.Formed := by
  cases r with
  | node found =>
      intro n hn
      obtain rfl := List.mem_singleton.mp hn
      exact (hr found (by simp [Replacement.nodes])).asStatement
  | statements body => exact hr

/-- A single node is put only where it may stand.  The statements of a run are not looked at, so
that they may stand in the list has to be known. -/
def Region.Accepts (root : Node) (r : Replacement) : Region → Prop
  | .node _ => True
  | .run parent field _ _ => ∀ n, Path.resolve? parent root = some n →
      ∀ c ∈ r.toStatements, n.Takes field c

theorem Node.Formed.splice
    {root tree : Node} {region : Region} {r : Replacement}
    (hroot : root.Formed)
    (hr : r.Formed)
    (haccepts : region.Accepts root r)
    (hsplice : root.splice region r = .ok tree) :
    tree.Formed := by
  cases region with
  | node path =>
      simp only [Node.splice] at hsplice
      split at hsplice
      next => exact hr.toNode hsplice
      next last _ =>
        split at hsplice
        next parent hparent =>
          simp only [bind_eq_ok_iff] at hsplice
          obtain ⟨child, hchild, ⟨⟩, hcheck, hedited⟩ := hsplice
          split at hedited
          next found hfound =>
            cases hedited
            refine (hroot.editSlot? ?_ hfound).2
            intro target slot slot' htarget hslot hslot'
            cases hparent.symm.trans htarget
            obtain ⟨hset, hchildren⟩ := Slot.setChild?_eq_some hslot'
            refine ⟨hset, fun c hc => ?_⟩
            rcases hchildren c hc with rfl | hold
            · exact ⟨checkSlot_eq_ok_iff.mp hcheck, hr.toNode hchild⟩
            · exact Node.Formed.child (hroot.resolve htarget) hslot hold
          next => cases hedited
        next => cases hsplice
  | run parent field start length =>
      simp only [Node.splice] at hsplice
      split at hsplice
      next found hfound =>
        cases hsplice
        refine (hroot.editSlot? ?_ hfound).2
        intro target slot slot' htarget hslot hslot'
        obtain ⟨hset, hchildren⟩ := Slot.setRun?_eq_some hslot'
        refine ⟨hset, fun c hc => ?_⟩
        rcases hchildren c hc with hbody | hold
        · exact ⟨haccepts target htarget c hbody, hr.toStatements c hbody⟩
        · exact Node.Formed.child (hroot.resolve htarget) hslot hold
      next => cases hsplice

/-! ## Templates -/

section Templates

variable {s : Bindings}

def Bindings.Formed (s : Bindings) : Prop :=
  ∀ name b, s.get? name = some b → ∀ n ∈ b.nodes, n.Formed

theorem formed_expandNodes
    {ts cs : List Node}
    (ih : ∀ t ∈ ts, ∀ expansion, t.expand s = .ok expansion → ∀ c ∈ expansion.nodes, c.Formed)
    (hexpand : expandNodes s ts = .ok cs) :
    ∀ c ∈ cs, c.Formed := by
  induction ts generalizing cs with
  | nil =>
      cases hexpand
      simp
  | cons t ts ihts =>
      obtain ⟨first, others, hfirst, hothers, rfl⟩ := expandNodes_cons_eq_ok_iff.mp hexpand
      rw [List.forall_mem_cons] at ih
      intro c hc
      rcases List.mem_append.mp hc with hc | hc
      · exact ih.1 first hfirst c hc
      · exact ihts ih.2 hothers c hc

/-- What a template puts into a slot is checked against the slot. -/
theorem Slot.formed_expand
    {parent : Node} {field : Field} {slot slot' : Slot}
    (ih : ∀ t ∈ slot.children, ∀ expansion, t.expand s = .ok expansion →
      ∀ c ∈ expansion.nodes, c.Formed)
    (hslot : ∀ t ∈ slot.children, parent.Takes field t ∧ t.Formed)
    (hexpand : slot.expand s parent field = .ok slot') :
    slot'.isSet = slot.isSet ∧ ∀ c ∈ slot'.children, parent.Takes field c ∧ c.Formed := by
  cases slot with
  | node t =>
      by_cases hcallee : isDirectCallee parent.kind field t = true
      · simp only [Slot.expand, hcallee, if_true] at hexpand
        cases hexpand
        exact ⟨rfl, hslot⟩
      · rw [Bool.not_eq_true] at hcallee
        obtain ⟨c, hc, hfits, rfl⟩ := (Slot.expand_node_eq_ok_iff hcallee).mp hexpand
        refine ⟨rfl, fun c' hc' => ?_⟩
        obtain rfl := List.mem_singleton.mp hc'
        exact ⟨hfits, ih t (by simp [Slot.children]) _ hc _ (by simp [Expansion.nodes])⟩
  | list ts =>
      obtain ⟨cs, hcs, hfits, rfl⟩ := Slot.expand_list_eq_ok_iff.mp hexpand
      exact ⟨rfl, fun c hc => ⟨hfits c hc, formed_expandNodes ih hcs c hc⟩⟩
  | absent =>
      cases hexpand
      exact ⟨rfl, hslot⟩
  | scalar value =>
      cases hexpand
      exact ⟨rfl, hslot⟩

theorem formed_expandSlots
    {parent : Node} {slots slots' : List (Field × Slot)}
    (ih : ∀ entry ∈ slots, ∀ slot', entry.2.expand s parent entry.1 = .ok slot' →
      slot'.isSet = entry.2.isSet ∧ ∀ c ∈ slot'.children, parent.Takes entry.1 c ∧ c.Formed)
    (hexpand : expandSlots s parent slots = .ok slots') :
    slots'.map Prod.fst = slots.map Prod.fst ∧
      (∀ field, ((slots'.lookup field).getD .absent).isSet =
        ((slots.lookup field).getD .absent).isSet) ∧
      ∀ entry ∈ slots', ∀ c ∈ entry.2.children, parent.Takes entry.1 c ∧ c.Formed := by
  induction slots generalizing slots' with
  | nil =>
      cases hexpand
      simp
  | cons entry rest ihrest =>
      obtain ⟨field, slot⟩ := entry
      obtain ⟨first, others, hfirst, hothers, rfl⟩ := expandSlots_cons_eq_ok_iff.mp hexpand
      rw [List.forall_mem_cons] at ih
      obtain ⟨hfields, hflags, hchildren⟩ := ihrest ih.2 hothers
      obtain ⟨hset, hformed⟩ := ih.1 first hfirst
      refine ⟨?_, ?_, ?_⟩
      · rw [List.map_cons, List.map_cons, hfields]
      · intro other
        rw [List.lookup_cons, List.lookup_cons]
        cases other == field with
        | true => exact hset
        | false => exact hflags other
      · rw [List.forall_mem_cons]
        exact ⟨hformed, hchildren⟩

theorem Node.Formed.expand
    {t : Node} {expansion : Expansion}
    (hs : s.Formed) (ht : t.Formed) (hexpand : t.expand s = .ok expansion) :
    ∀ c ∈ expansion.nodes, c.Formed := by
  induction t using Node.childInduction generalizing expansion with
  | hparent t ih =>
      obtain ⟨hfields, hchildren⟩ := Node.formed_iff.mp ht
      cases hexpansion : t.expansion? s with
      | some found =>
          rw [Node.expand_of_expansion hexpansion] at hexpand
          cases hexpand
          obtain ⟨-, name, b, -, hb, hnodes, -⟩ := Node.expansion?_eq_some hexpansion
          rw [hnodes]
          exact hs name b hb
      | none =>
          obtain ⟨slots, hslots, rfl⟩ := (Node.expand_eq_ok_iff hexpansion).mp hexpand
          have hslot : ∀ entry ∈ t.slots, ∀ slot', entry.2.expand s t entry.1 = .ok slot' →
              slot'.isSet = entry.2.isSet ∧
                ∀ c ∈ slot'.children, t.Takes entry.1 c ∧ c.Formed := by
            intro entry hentry slot' hslot'
            refine Slot.formed_expand ?_ (hchildren entry hentry) hslot'
            intro c hc expansion hexpand
            exact ih entry hentry c hc (hchildren entry hentry c hc).2 hexpand
          obtain ⟨hsame, hflags, hnew⟩ := formed_expandSlots hslot hslots
          -- whether a slot takes a name depends on the flags, so the copy must have the same
          have hflag : (Node.mk t.kind t.span slots).flag .computed = t.flag .computed := by
            rw [Node.flag_eq_isSet, Node.flag_eq_isSet]
            exact hflags .computed
          intro c hc
          obtain rfl := List.mem_singleton.mp hc
          refine Node.formed_iff.mpr ⟨?_, ?_⟩
          · unfold Node.HasKindFields Node.fields
            rw [Node.slots_mk, hsame]
            exact hfields
          · intro entry hentry c hc
            unfold Node.Takes
            rw [hflag]
            exact hnew entry hentry c hc

theorem Fragment.formed_instantiate
    {template : Fragment} {r : Replacement}
    (hs : s.Formed)
    (htemplate : ∀ t ∈ template.nodes, t.Formed)
    (hinstance : template.instantiate s = .ok r) :
    r.Formed := by
  cases template with
  | expression t =>
      simp only [Fragment.instantiate, bind_eq_ok_iff, Expansion.single_eq_ok_iff] at hinstance
      obtain ⟨expansion, hexpand, c, rfl, hr⟩ := hinstance
      cases hr
      exact Node.Formed.expand hs (htemplate t (by simp [Fragment.nodes])) hexpand
  | statements ts =>
      simp only [Fragment.instantiate, bind_eq_ok_iff] at hinstance
      obtain ⟨cs, hcs, hr⟩ := hinstance
      cases hr
      refine formed_expandNodes ?_ hcs
      intro t ht expansion hexpand
      exact Node.Formed.expand hs (htemplate t ht) hexpand

end Templates

/-! ## Rules -/

theorem Pattern.formed_bindings
    {p : Pattern} {root : Node} {m : Match}
    (hroot : root.Formed) (hm : m ∈ p.findAll root) :
    m.bindings.Formed := by
  obtain ⟨candidate, hunify, hcandidate⟩ := Node.exists_unifySequence_of_mem_findMatches hm
  obtain ⟨-, found, hfound, hbind⟩ := unifySequence_eq_iff.mp hunify
  have hcaptured : ∀ capture ∈ found, ∀ n ∈ capture.2.nodes, n.Formed :=
    all_of_capturesInNodes (fun q _ _ _ => Node.all_of_captures) hfound
      (hcandidate Node.FormedHere hroot)
  intro name b hb
  rw [Bindings.get?_of_bindAll hbind] at hb
  exact hcaptured (name, b) (mem_of_lookup_eq_some hb)

/-- Only lists of statements are searched for runs. -/
theorem Node.hasStatementList_of_mem_findMatches
    {p : Pattern} {site : Option Site} {n : Node} {m : Match} {parent : Path} {field : Field}
    {start length : Nat}
    (hm : m ∈ n.findMatches p site) (hregion : m.region = .run parent field start length) :
    ∃ kind : Kind, kind.hasStatementList field = true := by
  induction n using Node.childInduction generalizing site m parent with
  | hparent n ih =>
      rw [Node.findMatches_eq, List.mem_append, Option.mem_toList,
        mem_findMatchesInSlots_iff] at hm
      rcases hm with hhere | ⟨entry, hentry, hslot⟩
      · obtain ⟨-, -, hm⟩ := Pattern.matchNode?_eq_some_iff.mp hhere
        rw [hm] at hregion
        cases hregion
      · rcases Slot.mem_findMatches_cases hslot with
          ⟨start, items, -, hlist, hrun⟩ | ⟨c, hc, step, inner, hinner, rfl⟩
        · obtain ⟨body, -, -, -, -, hrunRegion⟩ := Pattern.matchRun?_eq_some hrun
          rw [hrunRegion] at hregion
          cases hregion
          exact ⟨n.kind, hlist⟩
        · cases hinnerRegion : inner.region with
          | node path => simp [Match.under, hinnerRegion, Region.under] at hregion
          | run front other start' length' =>
              simp only [Match.under, hinnerRegion, Region.under, Region.run.injEq] at hregion
              obtain ⟨-, rfl, rfl, rfl⟩ := hregion
              exact ih entry hentry c hc hinner hinnerRegion

theorem Pattern.accepts_of_mem_findAll
    {p : Pattern} {root : Node} {m : Match}
    (hm : m ∈ p.findAll root)
    (tree : Node) (r : Replacement) :
    m.region.Accepts tree r := by
  cases hregion : m.region with
  | node path => trivial
  | run parent field start length =>
      obtain ⟨kind, hlist⟩ := Node.hasStatementList_of_mem_findMatches hm hregion
      intro n _ c _
      exact Node.takes_of_hasStatementList hlist n c

theorem Rule.formed_replaceAll
    {rule : Rule} {root tree : Node} {ms : List Match}
    (htemplate : ∀ t ∈ rule.template.nodes, t.Formed)
    (hroot : root.Formed)
    (hms : ∀ m ∈ ms, m ∈ rule.pattern.findAll root)
    (hreplace : rule.replaceAll ms root = .ok tree) :
    tree.Formed := by
  induction ms generalizing tree with
  | nil =>
      cases hreplace
      exact hroot
  | cons m ms ih =>
      simp only [Rule.replaceAll, bind_eq_ok_iff] at hreplace
      obtain ⟨mid, hmid, r, hr, hsplice⟩ := hreplace
      rw [List.forall_mem_cons] at hms
      have hmidFormed := ih hms.2 hmid
      have hbindings := Pattern.formed_bindings hroot hms.1
      have hrFormed := Fragment.formed_instantiate hbindings htemplate hr
      exact hmidFormed.splice hrFormed (Pattern.accepts_of_mem_findAll hms.1 mid r) hsplice

theorem Rule.formed_transform
    {rule : Rule} {root : Node} {result : Transformed}
    (htemplate : ∀ t ∈ rule.template.nodes, t.Formed)
    (hroot : root.Formed)
    (hresult : rule.transform root = .ok result) :
    result.tree.Formed := by
  simp only [Rule.transform, bind_eq_ok_iff] at hresult
  obtain ⟨tree, htree, hresult⟩ := hresult
  cases hresult
  exact Rule.formed_replaceAll htemplate hroot
    (fun m hm => (selectFrom_sublist [] _).subset hm) htree

/-! ## Runs of edits -/

/-- One successful edit of a tree, by a rule or by a single replacement. -/
inductive EditsTo : Node → Node → Prop
  | rule {root : Node} {rule : Rule} {result : Transformed} :
      (∀ n ∈ rule.pattern.fragment.nodes, n.Formed) → (∀ n ∈ rule.template.nodes, n.Formed) →
      rule.transform root = .ok result → EditsTo root result.tree
  | splice {root tree : Node} {region : Region} {r : Replacement} :
      r.Formed → region.Accepts root r → root.splice region r = .ok tree → EditsTo root tree

theorem EditsTo.formed
    {root tree : Node}
    (hroot : root.Formed) (hedit : EditsTo root tree) :
    tree.Formed := by
  cases hedit with
  | rule _ htemplate hresult => exact Rule.formed_transform htemplate hroot hresult
  | splice hr haccepts hsplice => exact hroot.splice hr haccepts hsplice

/-- A slot for bindings holds names, defaults, rest elements and patterns; any other slot for a
name holds an identifier, unless it is computed or is a literal key of an object. -/
def Node.NamesStand (n : Node) : Prop :=
  ∀ field slot, (field, slot) ∈ n.slots → ∀ c ∈ slot.children,
    (n.kind.isBindingSlot field = true →
      c.kind ∈ [Kind.identifier, .assignmentPattern, .restElement, .raw]) ∧
    (n.kind.isNameSlot field = true →
      c.kind = .identifier ∨
        (n.kind = .memberExpression ∨ n.kind = .property) ∧ n.flag .computed = true ∨
        n.kind = .property ∧ c.kind = .literal)

theorem Node.HasKindFields.computed
    {n : Node}
    (hfields : n.HasKindFields) (hcomputed : n.flag .computed = true) :
    n.kind = .memberExpression ∨ n.kind = .property := by
  have hfield : Field.computed ∈ n.fields := by
    rw [Node.flag_eq_isSet] at hcomputed
    cases hslot : n.slot? .computed with
    | none => simp [hslot, Slot.isSet] at hcomputed
    | some slot => exact List.mem_map.mpr ⟨_, Node.mem_slots_of_slot? hslot, rfl⟩
  have hkind : Field.computed ∈ n.kind.fields := hfields.mem_iff.mp hfield
  cases hn : n.kind <;> simp_all [Kind.fields]

theorem Node.FormedHere.namesStand {n : Node} (hn : n.FormedHere) : n.NamesStand := by
  intro field slot hslot c hc
  have hfits := hn.names (field, slot) hslot c hc
  unfold fitsSlot at hfits
  have hdisjoint : n.kind.isBindingSlot field = true → n.kind.isNameSlot field = false := by
    intro hbinding
    unfold Kind.isBindingSlot at hbinding
    split at hbinding <;> simp_all [Kind.isNameSlot]
  constructor
  · intro hbinding
    rw [if_pos hbinding] at hfits
    simpa [or_assoc] using hfits
  · intro hname
    have hbinding : ¬ n.kind.isBindingSlot field = true := by
      intro hbinding
      rw [hdisjoint hbinding] at hname
      cases hname
    rw [if_neg hbinding, if_pos hname] at hfits
    simp only [Bool.or_eq_true, Bool.and_eq_true, beq_iff_eq] at hfits
    rcases hfits with (hidentifier | hcomputed) | hliteral
    · exact Or.inl hidentifier
    · exact Or.inr (Or.inl ⟨hn.fields.computed hcomputed, hcomputed⟩)
    · exact Or.inr (Or.inr hliteral)

/-- Well-formedness is an invariant.  A rule turns a well-formed tree into an error or a
well-formed tree, and every tree that any number of edits leads to is well formed, so that all its
names and bindings stand where they may. -/
theorem Node.Formed.invariant {root : Node} (hroot : root.Formed) :
    (∀ rule : Rule, (∀ n ∈ rule.pattern.fragment.nodes, n.Formed) →
        (∀ n ∈ rule.template.nodes, n.Formed) →
        (∃ cause, rule.transform root = .error cause) ∨
          ∃ result, rule.transform root = .ok result ∧ result.tree.Formed) ∧
      ∀ tree, Relation.ReflTransGen EditsTo root tree →
        tree.Formed ∧ tree.All Node.NamesStand := by
  constructor
  · intro rule _ htemplate
    cases hresult : rule.transform root with
    | error cause => exact Or.inl ⟨cause, rfl⟩
    | ok result => exact Or.inr ⟨result, rfl, Rule.formed_transform htemplate hroot hresult⟩
  · intro tree hrun
    have htree : tree.Formed := by
      induction hrun with
      | refl => exact hroot
      | tail _ hstep ih => exact hstep.formed ih
    exact ⟨htree, htree.imp fun _ hn => hn.namesStand⟩

/-- A wildcard becomes the name of a property, and the tree that this leads to is well formed. -/
theorem Node.Formed.invariant_property :
    ∃ root rule result, parse "f(x);" = .ok root ∧ Rule.compile "f(a) -> obj.a" = .ok rule ∧
      root.Formed ∧ rule.transform root = .ok result ∧ result.applied = 1 ∧
      Relation.ReflTransGen EditsTo root result.tree ∧ result.tree.Formed ∧
      result.tree.All Node.NamesStand := by
  have hrun :
      (match parse "f(x);", Rule.compile "f(a) -> obj.a" with
        | .ok root, .ok rule =>
          decide root.Formed && decide (∀ n ∈ rule.pattern.fragment.nodes, n.Formed) &&
            decide (∀ n ∈ rule.template.nodes, n.Formed) &&
            match rule.transform root with
            | .ok result => result.applied == 1
            | .error _ => false
        | _, _ => false) = true := by
    decide +kernel
  split at hrun
  next root rule hparse hcompile =>
    simp only [Bool.and_eq_true, decide_eq_true_iff] at hrun
    obtain ⟨⟨⟨hroot, hpattern⟩, htemplate⟩, htransform⟩ := hrun
    split at htransform
    next result hresult =>
      have hstep : Relation.ReflTransGen EditsTo root result.tree :=
        .single (.rule hpattern htemplate hresult)
      obtain ⟨hformed, hnames⟩ := (Node.Formed.invariant hroot).2 _ hstep
      exact ⟨root, rule, result, hparse, hcompile, hroot, hresult, beq_iff_eq.mp htransform,
        hstep, hformed, hnames⟩
    next => cases htransform
  next => cases hrun

/-- Nothing keeps a statement from being put among the parameters of a function. -/
theorem Node.splice_run_not_formed :
    ∃ root body tree, parse "function f(x) \x7b\x7d" = .ok root ∧ root.Formed ∧
      (Replacement.statements body).Formed ∧
      root.splice (.run [⟨.body, some 0⟩] .params 0 1) (.statements body) = .ok tree ∧
      ¬ tree.Formed := by
  have hrun :
      (match parse "function f(x) \x7b\x7d", parse "1 + 2;" with
        | .ok root, .ok program =>
          decide root.Formed && decide (∀ n ∈ program.list .body, n.Formed) &&
            match root.splice (.run [⟨.body, some 0⟩] .params 0 1)
                (.statements (program.list .body)) with
            | .ok tree => !decide tree.Formed
            | .error _ => false
        | _, _ => false) = true := by
    decide +kernel
  split at hrun
  next root program hparse _ =>
    simp only [Bool.and_eq_true, decide_eq_true_iff] at hrun
    obtain ⟨⟨hroot, hbody⟩, hsplice⟩ := hrun
    split at hsplice
    next tree htree =>
      have hnot : ¬ tree.Formed := by simpa using hsplice
      exact ⟨root, program.list .body, tree, hparse, hroot, hbody, htree, hnot⟩
    next => cases hsplice
  next => cases hrun

end Graft
