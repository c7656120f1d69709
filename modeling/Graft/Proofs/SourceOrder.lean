import Graft.Proofs.FindAll
import Graft.Proofs.PlacedProgram
import Graft.Source

/-!
# Source order

Where the children of every node stand in textual order, the regions of a tree that come first in
document order also come first in the source, and of two that are nested the outer one comes
first.  There is one exception: the function of a method spans the whole member, so that it is met
behind a computed key although it starts in front of it.
-/

namespace Graft

/-- One range holds another one and is not the same. -/
def ProperlyContains (outer inner : Nat × Nat) : Prop :=
  outer.1 ≤ inner.1 ∧ inner.2 ≤ outer.2 ∧ outer ≠ inner

/-- The first range starts no later than the second one and does not lie properly in it. -/
def InSourceOrder (a b : Nat × Nat) : Prop :=
  a.1 ≤ b.1 ∧ ¬ ProperlyContains b a

theorem inSourceOrder_iff {a b : Nat × Nat} :
    InSourceOrder a b ↔ a.1 < b.1 ∨ a.1 = b.1 ∧ b.2 ≤ a.2 := by
  obtain ⟨start, stop⟩ := a
  obtain ⟨start', stop'⟩ := b
  simp only [InSourceOrder, ProperlyContains, ne_eq, Prod.mk.injEq]
  omega

/-- A method, getter or setter of an object, with a computed key. -/
def Node.isComputedMethod (n : Node) : Bool :=
  n.kind == .property && n.flag .computed && (n.flag .method || n.text? .kind != some "init")

/-- The first region stands in the computed key of a method, and the second one is the function
of that method. -/
inductive Node.KeyBeforeMethod : Node → Region → Region → Prop where
  | here {n : Node} {a : Region} {rest : Path} (hmethod : n.isComputedMethod = true)
      (hkey : a.anchor = ⟨.key, none⟩ :: rest) : KeyBeforeMethod n a (.node [⟨.value, none⟩])
  | inside {n c : Node} {step : Step} {a b : Region} (hstep : n.childAt? step = some c)
      (hinside : KeyBeforeMethod c a b) : KeyBeforeMethod n (a.under step) (b.under step)

/-- A name that stands here is the plain key of a property. -/
def Site.isPlainKey (site : Site) : Prop :=
  site.parent.kind = .property ∧ site.field = .key ∧ site.parent.flag .computed = false

/-- The region covers the range, and matches are looked for there. -/
inductive Node.Searches : Node → Region → Nat × Nat → Prop where
  | here {n : Node} : Searches n (.node []) (n.span.start, n.span.stop)
  | run {n first last : Node} {field : Field} {items : List Node} {start length : Nat}
      (hslot : n.slot? field = some (.list items))
      (hfirst : ((items.drop start).take length).head? = some first)
      (hlast : ((items.drop start).take length).getLast? = some last) :
      Searches n (.run [] field start length) (first.span.start, last.span.stop)
  | inside {n c : Node} {step : Step} {region : Region} {range : Nat × Nat}
      (hstep : n.childAt? step = some c)
      (hkey : ¬ (region = .node [] ∧ Site.isPlainKey ⟨n, step.field⟩))
      (hinside : Searches c region range) : Searches n (region.under step) range

theorem Node.Searches.range_eq_of_node_nil
    {n : Node} {range : Nat × Nat}
    (hsearches : n.Searches (.node []) range) :
    range = (n.span.start, n.span.stop) := by
  generalize hregion : Region.node [] = region at hsearches
  cases hsearches with
  | here => rfl
  | run => contradiction
  | inside => exact absurd hregion.symm (Region.under_ne_node_nil _ _)

theorem Node.Searches.of_under
    {n : Node} {region : Region} {step : Step} {range : Nat × Nat}
    (hsearches : n.Searches (region.under step) range) :
    ∃ c, n.childAt? step = some c ∧ ¬ (region = .node [] ∧ Site.isPlainKey ⟨n, step.field⟩) ∧
      c.Searches region range := by
  generalize hregion : region.under step = outer at hsearches
  cases hsearches with
  | here => exact absurd hregion (Region.under_ne_node_nil _ _)
  | run => exact absurd hregion (Region.under_ne_run_nil _ _ _ _ _)
  | inside hstep hkey hinside =>
      obtain ⟨rfl, rfl⟩ := Region.under_eq_under_iff.mp hregion
      exact ⟨_, hstep, hkey, hinside⟩

/-! ## Matches -/

theorem Pattern.not_isPlainKey_of_isEligible
    {p : Pattern} {site : Site} {n : Node}
    (heligible : p.isEligible (some site) n = true) :
    ¬ site.isPlainKey := by
  rintro ⟨hkind, hfield, hcomputed⟩
  obtain ⟨parent, field⟩ := site
  simp only at hkind hfield hcomputed
  subst hfield
  unfold Pattern.isEligible at heligible
  split at heligible
  · have hdeclares : Site.declaresName ⟨parent, .key⟩ = true := by
      simp [Site.declaresName, hkind, hcomputed]
    simp [hdeclares] at heligible
  · have hholds : Site.holdsOneStatement ⟨parent, .key⟩ = false := by
      simp [Site.holdsOneStatement, Kind.hasStatementSlot, hkind, Kind.hasStatementList,
        Kind.hasSingleStatement]
    simp [hholds] at heligible

theorem Pattern.searches_of_matchRun?
    {p : Pattern} {n : Node} {field : Field} {items : List Node} {start : Nat} {m : Match}
    (hslot : n.slot? field = some (.list items))
    (hm : p.matchRun? field start (items.drop start) = some m) :
    n.Searches m.region m.range := by
  unfold Pattern.matchRun? at hm
  cases hfragment : p.fragment with
  | expression root => simp [hfragment] at hm
  | statements body =>
      simp only [hfragment] at hm
      split at hm
      next first last hfits hfirst hlast =>
        cases hm
        rw [List.take_eq_take_min, ← List.length_take] at hfirst hlast
        exact Node.Searches.run hslot hfirst hlast
      next => cases hm

/-- Every match is a region in which matches are looked for, with the range that it covers. -/
theorem Node.searches_of_mem_findMatches
    {p : Pattern} {n : Node}
    (hn : n.DistinctFields)
    {site : Option Site} {m : Match}
    (hm : m ∈ n.findMatches p site) :
    n.Searches m.region m.range := by
  induction n using Node.childInduction generalizing site m with
  | hparent n ih =>
      rcases (Node.mem_findMatches_iff hn.here).mp hm with
        hhere | ⟨field, items, start, hslot, -, -, hrun⟩ | ⟨step, c, inner, hstep, hinner, rfl⟩
      · obtain ⟨-, -, hm⟩ := Pattern.matchNode?_eq_some_iff.mp hhere
        rw [hm]
        exact .here
      · exact Pattern.searches_of_matchRun? hslot hrun
      · obtain ⟨slot, hslot, hc⟩ := Node.childAt?_eq_some_iff.mp hstep
        refine .inside hstep ?_ (ih _ (Node.mem_slots_of_slot? hslot) c
          (Slot.mem_children_of_child? hc) (hn.childAt hstep) hinner)
        rintro ⟨hregion, hkey⟩
        rcases (Node.mem_findMatches_iff (hn.childAt hstep).here).mp hinner with
          hhere | ⟨field, items, start, -, -, -, hrun⟩ | ⟨step', c', inner', -, -, rfl⟩
        · obtain ⟨heligible, -, -⟩ := Pattern.matchNode?_eq_some_iff.mp hhere
          exact Pattern.not_isPlainKey_of_isEligible heligible hkey
        · obtain ⟨body, -, -, -, -, hrun⟩ := Pattern.matchRun?_eq_some hrun
          rw [hrun] at hregion
          contradiction
        · exact Region.under_ne_node_nil _ _ hregion

/-! ## Where regions lie -/

theorem rel_of_idxOf_lt
    {slots : List (Field × Slot)} {r : Node → Node → Prop} {f g : Field} {fSlot gSlot : Slot}
    (hf : slots.lookup f = some fSlot)
    (hg : slots.lookup g = some gSlot)
    (hlt : (slots.map Prod.fst).idxOf f < (slots.map Prod.fst).idxOf g)
    (hpairwise : (slots.flatMap fun entry => entry.2.children).Pairwise r)
    {a b : Node}
    (ha : a ∈ fSlot.children) (hb : b ∈ gSlot.children) :
    r a b := by
  induction slots with
  | nil => simp at hf
  | cons entry rest ih =>
      obtain ⟨field, slot⟩ := entry
      rw [List.flatMap_cons, List.pairwise_append] at hpairwise
      obtain ⟨-, hrest, hacross⟩ := hpairwise
      have hgne : field ≠ g := by
        rintro rfl
        simp at hlt
      rw [List.lookup_cons, beq_false_of_ne hgne.symm] at hg
      by_cases hfeq : field = f
      · subst hfeq
        rw [List.lookup_cons, beq_self_eq_true] at hf
        cases hf
        exact hacross a ha b (List.mem_flatMap.mpr ⟨_, mem_of_lookup_eq_some hg, hb⟩)
      · rw [List.lookup_cons, beq_false_of_ne (Ne.symm hfeq)] at hf
        rw [List.map_cons, List.idxOf_cons_ne _ hfeq, List.idxOf_cons_ne _ hgne] at hlt
        exact ih hf hg (by omega) hrest

theorem Node.children_sublist
    {n : Node} {field : Field} {slot : Slot}
    (hslot : n.slot? field = some slot) :
    slot.children.Sublist n.children := by
  have hchildren : slot.children ∈ n.slots.map fun entry => entry.2.children :=
    List.mem_map.mpr ⟨_, Node.mem_slots_of_slot? hslot, rfl⟩
  rw [Node.children, List.flatMap]
  exact List.sublist_flatten_of_mem hchildren

/-- Where one step leads before another one, its child stands before the other one. -/
theorem Node.StepBefore.rel
    {n a b : Node} {r : Node → Node → Prop} {s t : Step}
    (hbefore : n.StepBefore s t)
    (hs : n.childAt? s = some a)
    (ht : n.childAt? t = some b)
    (hpairwise : n.children.Pairwise r) :
    r a b := by
  obtain ⟨sSlot, hsSlot, ha⟩ := Node.childAt?_eq_some_iff.mp hs
  obtain ⟨tSlot, htSlot, hb⟩ := Node.childAt?_eq_some_iff.mp ht
  rcases hbefore with hlt | ⟨hfield, i, j, hi, hj, hij⟩
  · exact rel_of_idxOf_lt hsSlot htSlot hlt hpairwise (Slot.mem_children_of_child? ha)
      (Slot.mem_children_of_child? hb)
  · rw [hfield, htSlot] at hsSlot
    cases hsSlot
    have hslot := hpairwise.sublist (Node.children_sublist htSlot)
    rw [hi] at ha
    rw [hj] at hb
    cases sSlot with
    | list items =>
        obtain ⟨hilt, rfl⟩ := List.getElem?_eq_some_iff.mp ha
        obtain ⟨hjlt, rfl⟩ := List.getElem?_eq_some_iff.mp hb
        exact List.pairwise_iff_getElem.mp hslot i j hilt hjlt hij
    | _ => cases ha

theorem Node.PlacedHere.list_inRow
    {n : Node}
    (hn : n.PlacedHere)
    {field : Field} {items : List Node}
    (hslot : n.slot? field = some (.list items)) :
    InRow n.span.start items n.span.stop := by
  have hentry := Node.mem_slots_of_slot? hslot
  cases hn with
  | row hkind hrow => exact hrow.sublist (Node.children_sublist hslot)
  | named | computed | method => simp [Grammar.propertySlots, Slot.text, Slot.flag] at hentry

/-- The first and the last item of a run of nodes in a row. -/
theorem InRow.ends
    {lo hi : Nat} {run : List Node}
    (hrow : InRow lo run hi)
    {first last : Node}
    (hfirst : run.head? = some first) (hlast : run.getLast? = some last) :
    lo ≤ first.span.start ∧ first.span.start < first.span.stop ∧
      first.span.stop ≤ last.span.stop ∧ last.span.stop ≤ hi := by
  cases run with
  | nil => simp at hfirst
  | cons n rest =>
      cases hfirst
      obtain ⟨hlo, hn, hrest⟩ := hrow
      rcases List.mem_cons.mp (List.mem_of_getLast? hlast) with rfl | hmem
      · exact ⟨hlo, hn, Nat.le_refl _, hrest.le⟩
      · have hlater := hrest.mem hmem
        omega

theorem Node.PlacedHere.run_ends
    {n first last : Node}
    (hn : n.PlacedHere)
    {field : Field} {items : List Node} {start length : Nat}
    (hslot : n.slot? field = some (.list items))
    (hfirst : ((items.drop start).take length).head? = some first)
    (hlast : ((items.drop start).take length).getLast? = some last) :
    n.span.start ≤ first.span.start ∧ first.span.start < first.span.stop ∧
      first.span.stop ≤ last.span.stop ∧ last.span.stop ≤ n.span.stop := by
  have hsublist := (List.take_sublist length (items.drop start)).trans (List.drop_sublist _ _)
  exact ((hn.list_inRow hslot).sublist hsublist).ends hfirst hlast

/-- A region below a node is not empty and does not reach out of it. -/
theorem Node.Searches.within
    {n : Node} {region : Region} {range : Nat × Nat}
    (hsearches : n.Searches region range) (hn : n.Placed) (hbelow : region ≠ .node []) :
    n.span.start ≤ range.1 ∧ range.1 < range.2 ∧ range.2 ≤ n.span.stop := by
  induction hsearches with
  | here => contradiction
  | run hslot hfirst hlast =>
      have hends := hn.here.run_ends hslot hfirst hlast
      dsimp only
      omega
  | @inside n c step region range hstep hkey hinside ih =>
      have hchild := hn.here.within (Node.mem_children_of_childAt? hstep)
      by_cases htop : region = .node []
      · subst htop
        rw [hinside.range_eq_of_node_nil]
        exact hchild
      · have hdeeper := ih (hn.childAt hstep) htop
        omega

/-- A region behind a step is a region of the child there, or a run that starts with it. -/
theorem Node.Searches.of_anchor
    {n : Node} {region : Region} {range : Nat × Nat} {step : Step} {rest : Path}
    (hsearches : n.Searches region range)
    (hn : n.PlacedHere)
    (hanchor : region.anchor = step :: rest) :
    ∃ c, n.childAt? step = some c ∧
      ((∃ inner, region = inner.under step ∧ inner.anchor = rest ∧
          ¬ (inner = .node [] ∧ Site.isPlainKey ⟨n, step.field⟩) ∧ c.Searches inner range) ∨
        rest = [] ∧ region.isRun = true ∧ step.index ≠ none ∧ range.1 = c.span.start ∧
          c.span.start < c.span.stop ∧ c.span.stop ≤ range.2) := by
  cases hsearches with
  | here => cases hanchor
  | @run n first last field items start length hslot hfirst hlast =>
      cases hanchor
      refine ⟨first, Node.childAt?_eq_some_iff.mpr ⟨_, hslot, ?_⟩, Or.inr ?_⟩
      · rw [List.head?_take] at hfirst
        split at hfirst
        · cases hfirst
        · rwa [List.head?_drop] at hfirst
      · have hends := hn.run_ends hslot hfirst hlast
        exact ⟨rfl, rfl, nofun, rfl, hends.2.1, hends.2.2.1⟩
  | inside hstep hkey hinside =>
      rw [Region.anchor_under] at hanchor
      obtain ⟨rfl, rfl⟩ := List.cons.inj hanchor
      exact ⟨_, hstep, Or.inl ⟨_, rfl, rfl, hkey, hinside⟩⟩

/-- A region starts in the child that holds its first node. -/
theorem Node.Searches.starts_in
    {n : Node} {region : Region} {range : Nat × Nat} {step : Step} {rest : Path}
    (hsearches : n.Searches region range) (hn : n.Placed) (hanchor : region.anchor = step :: rest) :
    ∃ c, n.childAt? step = some c ∧ c.span.start ≤ range.1 ∧ range.1 < c.span.stop := by
  obtain ⟨c, hstep, ⟨inner, -, -, -, hinner⟩ | ⟨-, -, -, hstart, hc, -⟩⟩ :=
    hsearches.of_anchor hn.here hanchor
  · refine ⟨c, hstep, ?_⟩
    have hchild := hn.here.within (Node.mem_children_of_childAt? hstep)
    by_cases htop : inner = .node []
    · subst htop
      rw [hinner.range_eq_of_node_nil]
      exact ⟨Nat.le_refl _, hchild.2.1⟩
    · have hdeeper := hinner.within (hn.childAt hstep) htop
      omega
  · exact ⟨c, hstep, by omega, by omega⟩

/-! ## Members of objects -/

section
variable {n : Node} {key value : Node} {accessor : String} {computed shorthand method : Bool}
  (hslots : n.slots = Grammar.propertySlots key value accessor computed shorthand method)
include hslots

theorem childAt?_propertySlots
    {c : Node} {step : Step}
    (hstep : n.childAt? step = some c) :
    step = ⟨.key, none⟩ ∧ c = key ∨ step = ⟨.value, none⟩ ∧ c = value := by
  obtain ⟨slot, hslot, hc⟩ := Node.childAt?_eq_some_iff.mp hstep
  obtain ⟨field, index⟩ := step
  have hentry := Node.mem_slots_of_slot? hslot
  simp only [hslots, Grammar.propertySlots, Slot.text, Slot.flag, List.mem_cons,
    Prod.mk.injEq, List.not_mem_nil, or_false] at hentry
  rcases hentry with ⟨rfl, rfl⟩ | ⟨rfl, rfl⟩ | ⟨-, rfl⟩ | ⟨-, rfl⟩ | ⟨-, rfl⟩ | ⟨-, rfl⟩
  · left
    cases index <;> cases hc
    exact ⟨rfl, rfl⟩
  · right
    cases index <;> cases hc
    exact ⟨rfl, rfl⟩
  all_goals cases index <;> cases hc

/-- Only the key stands before something else, and that is the value. -/
theorem stepBefore_propertySlots
    {a b : Node} {s t : Step}
    (hbefore : n.StepBefore s t) (hs : n.childAt? s = some a) (ht : n.childAt? t = some b) :
    s = ⟨.key, none⟩ ∧ a = key ∧ t = ⟨.value, none⟩ ∧ b = value := by
  rcases childAt?_propertySlots hslots hs with ⟨rfl, rfl⟩ | ⟨rfl, rfl⟩
  · rcases childAt?_propertySlots hslots ht with ⟨rfl, rfl⟩ | ⟨rfl, rfl⟩
    · exact absurd hbefore Node.StepBefore.irrefl
    · exact ⟨rfl, rfl, rfl, rfl⟩
  · rcases childAt?_propertySlots hslots ht with ⟨rfl, rfl⟩ | ⟨rfl, rfl⟩
    · rcases hbefore with hlt | ⟨hfield, -⟩
      · simp [Node.fields, hslots, Grammar.propertySlots] at hlt
      · cases hfield
    · exact absurd hbefore Node.StepBefore.irrefl

end

theorem isComputedMethod_propertySlots
    (span : Span) (key value : Node) (accessor : String) (computed shorthand method : Bool) :
    (Node.mk .property span (Grammar.propertySlots key value accessor computed shorthand
      method)).isComputedMethod = (computed && (method || accessor != "init")) := by
  rfl

theorem Node.Searches.eq_node_nil
    {n : Node} {region : Region} {range : Nat × Nat}
    (hsearches : n.Searches region range) (hleaf : n.children = []) :
    region = .node [] := by
  cases hsearches with
  | here => rfl
  | run hslot hfirst hlast =>
      have hmem := List.mem_of_mem_take (List.mem_of_head? hfirst)
      have hchild := Node.mem_children (Node.mem_slots_of_slot? hslot) (List.mem_of_mem_drop hmem)
      simp [hleaf] at hchild
  | inside hstep hkey hinside =>
      have hchild := Node.mem_children_of_childAt? hstep
      simp [hleaf] at hchild

/-! ## Document order and source order -/

theorem Region.eq_node_nil_of_anchor {region : Region} (hanchor : region.anchor = []) :
    region = .node [] := by
  cases region with
  | node path =>
      cases hanchor
      rfl
  | run parent field start length => simp at hanchor

/-- Two regions that stand below different children of a node. -/
theorem Node.StepBefore.inSourceOrder
    {n : Node}
    (hn : n.Placed)
    {s t : Step}
    (hbefore : n.StepBefore s t)
    {p q : Path} {a b : Region} {ra rb : Nat × Nat}
    (ha : n.Searches a ra)
    (hb : n.Searches b rb)
    (hs : a.anchor = s :: p)
    (ht : b.anchor = t :: q) :
    InSourceOrder ra rb ∨ n.KeyBeforeMethod a b := by
  obtain ⟨c, hc, hstart, hstop⟩ := ha.starts_in hn hs
  obtain ⟨d, hd, hstart', hstop'⟩ := hb.starts_in hn ht
  have hapart : c.span.stop ≤ d.span.start → InSourceOrder ra rb :=
    fun hle => inSourceOrder_iff.mpr (Or.inl (by omega))
  cases hn.here with
  | row hkind hrow => exact Or.inl (hapart (hbefore.rel hc hd hrow.pairwise))
  | named hleaf hkey hvalue =>
      -- the first region can only be the key, and no match is looked for there
      obtain ⟨rfl, rfl, rfl, rfl⟩ := stepBefore_propertySlots rfl hbefore hc hd
      obtain ⟨c', hc', ⟨inner, -, -, hplain, hinner⟩ | ⟨-, -, hindex, -⟩⟩ :=
        ha.of_anchor hn.here hs
      · cases hc.symm.trans hc'
        exact absurd ⟨hinner.eq_node_nil hleaf, rfl, rfl, rfl⟩ hplain
      · exact absurd rfl hindex
  | computed hrow =>
      obtain ⟨rfl, rfl, rfl, rfl⟩ := stepBefore_propertySlots rfl hbefore hc hd
      exact Or.inl (hapart hrow.2.2.1)
  | method hspan hkey hrow =>
      obtain ⟨rfl, rfl, rfl, rfl⟩ := stepBefore_propertySlots rfl hbefore hc hd
      obtain ⟨d', hd', ⟨inner, rfl, hanchor, -, hinner⟩ | ⟨-, -, hindex, -⟩⟩ :=
        hb.of_anchor hn.here ht
      · cases hd.symm.trans hd'
        cases hrest : inner.anchor with
        | nil =>
            right
            rw [Region.eq_node_nil_of_anchor hrest]
            refine .here ?_ hs
            rw [isComputedMethod_propertySlots, bne, Bool.or_not_self, Bool.and_self]
        | cons step rest =>
            -- behind the key, whatever stands in the function
            obtain ⟨e, he, hstart'', -⟩ := hinner.starts_in (hn.childAt hd) hrest
            have hbehind := (hrow.2.2.mem (Node.mem_children_of_childAt? he)).1
            exact Or.inl (inSourceOrder_iff.mpr (Or.inl (by omega)))
      · exact absurd rfl hindex

/-- What comes first in a tree comes first in the source, unless it is met in the key of a
method. -/
theorem Node.Precedes.inSourceOrder
    {n : Node} {p q : Path}
    (hprecedes : n.Precedes p q) (hn : n.Placed)
    {a b : Region} {ra rb : Nat × Nat}
    (ha : n.Searches a ra) (hb : n.Searches b rb) (hp : a.anchor = p) (hq : b.anchor = q) :
    InSourceOrder ra rb ∨ n.KeyBeforeMethod a b := by
  induction hprecedes generalizing a b with
  | above =>
      left
      cases Region.eq_node_nil_of_anchor hp
      have hbelow : b ≠ .node [] := by
        rintro rfl
        cases hq
      have hwithin := hb.within hn hbelow
      rw [ha.range_eq_of_node_nil, inSourceOrder_iff]
      dsimp only
      omega
  | beside hstep => exact hstep.inSourceOrder hn ha hb hp hq
  | @inside n c step p q hstep hrest ih =>
      have hdeep : q ≠ [] := by
        rintro rfl
        cases hrest
      obtain ⟨c', hc', ⟨inner, rfl, hinner, -, hb⟩ | ⟨hnil, -⟩⟩ := hb.of_anchor hn.here hq
      · cases hstep.symm.trans hc'
        obtain ⟨c', hc', ⟨outer, rfl, houter, -, ha⟩ | ⟨rfl, -, -, hstart, -, hstop⟩⟩ :=
          ha.of_anchor hn.here hp
        · cases hstep.symm.trans hc'
          exact (ih (hn.childAt hstep) ha hb houter hinner).imp id fun hkey => .inside hstep hkey
        · -- a run that starts with the child, and a region in the child
          cases hstep.symm.trans hc'
          have hbelow : inner ≠ .node [] := by
            rintro rfl
            exact hdeep hinner.symm
          have hwithin := hb.within (hn.childAt hstep) hbelow
          exact Or.inl (inSourceOrder_iff.mpr (by omega))
      · exact absurd hnil hdeep

/-- A run starts where its first item starts, and does not end before it. -/
theorem inSourceOrder_of_run
    {n : Node}
    (hn : n.Placed)
    {path : Path} {a b : Region} {ra rb : Nat × Nat}
    (ha : n.Searches a ra)
    (hb : n.Searches b rb)
    (hp : a.anchor = path)
    (hq : b.anchor = path)
    (hrun : a.isRun = true)
    (hnode : b.isRun = false) :
    InSourceOrder ra rb := by
  induction path generalizing n a b with
  | nil => exact absurd hp (Region.anchor_ne_nil_of_isRun hrun)
  | cons step rest ih =>
      obtain ⟨c, hc, ⟨inner, rfl, hinner, -, hb⟩ | ⟨-, hrun', -⟩⟩ := hb.of_anchor hn.here hq
      · obtain ⟨c', hc', ⟨outer, rfl, houter, -, ha⟩ | ⟨rfl, -, -, hstart, -, hstop⟩⟩ :=
          ha.of_anchor hn.here hp
        · cases hc.symm.trans hc'
          rw [Region.isRun_under] at hrun hnode
          exact ih (hn.childAt hc) ha hb houter hinner hrun hnode
        · cases hc.symm.trans hc'
          cases Region.eq_node_nil_of_anchor hinner
          rw [hb.range_eq_of_node_nil, inSourceOrder_iff]
          dsimp only
          omega
      · rw [hnode] at hrun'
        contradiction

/-- The function of a method starts before its computed key. -/
theorem Node.KeyBeforeMethod.start_lt
    {n : Node} {a b : Region}
    (hkey : n.KeyBeforeMethod a b) (hn : n.Placed)
    {ra rb : Nat × Nat}
    (ha : n.Searches a ra) (hb : n.Searches b rb) :
    rb.1 < ra.1 := by
  induction hkey with
  | @here n a rest hmethod hanchor =>
      obtain ⟨c, hc, hstart, -⟩ := ha.starts_in hn hanchor
      have hfunction : n.Searches ((Region.node []).under ⟨.value, none⟩) rb := hb
      obtain ⟨d, hd, -, hvalue⟩ := hfunction.of_under
      rw [hvalue.range_eq_of_node_nil]
      cases hn.here with
      | row hkind => simp [Node.isComputedMethod, hkind] at hmethod
      | named | computed => simp [isComputedMethod_propertySlots] at hmethod
      | method hspan hbehind hrow =>
          obtain ⟨-, rfl⟩ | ⟨hfield, -⟩ := childAt?_propertySlots rfl hc
          · obtain ⟨hfield, -⟩ | ⟨-, rfl⟩ := childAt?_propertySlots rfl hd
            · cases hfield
            · rw [hspan]
              dsimp only
              omega
          · cases hfield
  | inside hstep hinside ih =>
      obtain ⟨c, hc, -, ha⟩ := ha.of_under
      obtain ⟨c', hc', -, hb⟩ := hb.of_under
      cases hstep.symm.trans hc
      cases hstep.symm.trans hc'
      exact ih (hn.childAt hstep) ha hb

/-- In a tree in textual order, what comes first in document order comes first in the source,
exactly when it is not met in the computed key of a method that comes second. -/
theorem Region.Before.inSourceOrder_iff
    {root : Node}
    (hroot : root.Placed)
    {a b : Region}
    (hbefore : Region.Before root a b)
    {ra rb : Nat × Nat}
    (ha : root.Searches a ra) (hb : root.Searches b rb) :
    InSourceOrder ra rb ↔ ¬ root.KeyBeforeMethod a b := by
  constructor
  · intro horder hkey
    have hlt := hkey.start_lt hroot ha hb
    have hle := horder.1
    omega
  · intro hkey
    rcases hbefore with hprecedes | ⟨hrun, hnode, hanchor⟩
    · exact (hprecedes.inSourceOrder hroot ha hb rfl rfl).resolve_right hkey
    · exact inSourceOrder_of_run hroot ha hb hanchor rfl hrun hnode

theorem Node.KeyBeforeMethod.exists_method
    {n : Node} {a b : Region}
    (hkey : n.KeyBeforeMethod a b) :
    ¬ n.All fun n => n.isComputedMethod = false := by
  induction hkey with
  | here hmethod =>
      intro hall
      have hnone := hall.here
      rw [hmethod] at hnone
      contradiction
  | inside hstep _ ih => exact fun hall => ih (hall.childAt hstep)

theorem search_eq_findAll
    {source pattern : String} {p : Pattern} {root : Node}
    (hcompile : Pattern.compile pattern = .ok p) (hparse : parse source = .ok root) :
    search source pattern = .ok (p.findAll root) := by
  unfold search
  rw [hcompile]
  change p.search source = _
  unfold Pattern.search readTree
  rw [hparse]
  rfl

/-- A search in a program lists its matches in source order, the containing one of two first.  Two
matches are out of order exactly when the later one is the function of a method, getter or setter
and the earlier one stands in its computed key. -/
theorem search_inSourceOrder_iff
    {source pattern : String} {p : Pattern} {root : Node}
    (hcompile : Pattern.compile pattern = .ok p) (hparse : parse source = .ok root) :
    ∃ ms, search source pattern = .ok ms ∧
      (ms.Pairwise fun a b =>
        InSourceOrder a.range b.range ↔ ¬ root.KeyBeforeMethod a.region b.region) ∧
      ((root.All fun n => n.isComputedMethod = false) →
        ms.Pairwise fun a b => InSourceOrder a.range b.range) := by
  have hdistinct : root.DistinctFields :=
    Node.distinctFields_of_hasKindFields ((read_of_parse hparse).imp fun _ hn => hn.fields)
  have hplaced := placed_of_parse hparse
  have hordered : (p.findAll root).Pairwise fun a b =>
      InSourceOrder a.range b.range ↔ ¬ root.KeyBeforeMethod a.region b.region := by
    have hdocument : (p.findAll root).Pairwise fun a b => Region.Before root a.region b.region :=
      Node.pairwise_findMatches hdistinct none
    refine hdocument.imp_of_mem fun {a b} ha hb hbefore => ?_
    exact hbefore.inSourceOrder_iff hplaced (Node.searches_of_mem_findMatches hdistinct ha)
      (Node.searches_of_mem_findMatches hdistinct hb)
  refine ⟨p.findAll root, search_eq_findAll hcompile hparse, hordered, fun hnone => ?_⟩
  exact hordered.imp fun hiff => hiff.mpr fun hkey => hkey.exists_method hnone

/-- A function as the computed key of a method. -/
theorem search_inSourceOrder_iff_function_key :
    ∃ p root ms, Pattern.compile "function() \x7b\x7d" = .ok p ∧
      parse "(\x7b[function() \x7b\x7d]() \x7b\x7d\x7d);" = .ok root ∧
      search "(\x7b[function() \x7b\x7d]() \x7b\x7d\x7d);" "function() \x7b\x7d" = .ok ms ∧
      ms.map Match.range = [(3, 16), (2, 22)] ∧
      ms.Pairwise fun a b =>
        InSourceOrder a.range b.range ↔ ¬ root.KeyBeforeMethod a.region b.region := by
  have hrun :
      (match Pattern.compile "function() \x7b\x7d",
          parse "(\x7b[function() \x7b\x7d]() \x7b\x7d\x7d);" with
        | .ok p, .ok root => (p.findAll root).map Match.range == [(3, 16), (2, 22)]
        | _, _ => false) = true := by
    decide +kernel
  split at hrun
  next p root hp hroot =>
    obtain ⟨ms, hsearch, hordered, -⟩ := search_inSourceOrder_iff hp hroot
    refine ⟨p, root, ms, hp, hroot, hsearch, ?_, hordered⟩
    cases (search_eq_findAll hp hroot).symm.trans hsearch
    exact beq_iff_eq.mp hrun
  next => contradiction

end Graft
