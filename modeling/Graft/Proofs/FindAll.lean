import Graft.Proofs.Compile
import Graft.Proofs.DocumentOrder

/-!
# The matches of a pattern

What `Pattern.findAll` lists: every node at which the pattern may be tried and fits, and every run
of a statement list that it fits, each of them once and in document order.

The traversal is opened once, in `Node.mem_findMatches_iff`: a match below a node is a match of the
node itself, of a run of one of its lists, or a match below a child seen from one step above.
Membership is then an induction over the path of a match, and the order an induction over the tree.
-/

namespace Graft

theorem Node.findMatches_eq (p : Pattern) (site : Option Site) (n : Node) :
    n.findMatches p site =
      (p.matchNode? site n).toList ++ findMatchesInSlots p n n.slots := by
  cases n
  rw [Node.findMatches]
  rfl

/-! ## One step of the traversal -/

theorem mem_findMatchesInSlots_iff
    {p : Pattern} {parent : Node} {slots : List (Field × Slot)} {m : Match} :
    m ∈ findMatchesInSlots p parent slots ↔
      ∃ entry ∈ slots, m ∈ entry.2.findMatches p ⟨parent, entry.1⟩ := by
  induction slots with
  | nil => simp [findMatchesInSlots]
  | cons entry rest ih => simp [findMatchesInSlots, ih]

/-- The matches found from a position of a list on: runs of statements that start there or later,
and matches below the items there. -/
theorem mem_findMatchesInNodes_iff
    {p : Pattern} {site : Site} {start : Nat} {ns : List Node} {m : Match} :
    m ∈ findMatchesInNodes p site start ns ↔
      ∃ i c, ns[i]? = some c ∧
        (site.parent.kind.hasStatementList site.field = true ∧
            p.matchRun? site.field (start + i) (ns.drop i) = some m ∨
          ∃ inner ∈ c.findMatches p (some site),
            m = inner.under ⟨site.field, some (start + i)⟩) := by
  induction ns generalizing start with
  | nil => simp [findMatchesInNodes]
  | cons n rest ih =>
      have hrun :
          m ∈ (if site.parent.kind.hasStatementList site.field then
              (p.matchRun? site.field start (n :: rest)).toList else []) ↔
            site.parent.kind.hasStatementList site.field = true ∧
              p.matchRun? site.field start (n :: rest) = some m := by
        split <;> simp_all
      have hinner :
          m ∈ (n.findMatches p (some site)).map (Match.under ⟨site.field, some start⟩) ↔
            ∃ inner ∈ n.findMatches p (some site),
              m = inner.under ⟨site.field, some start⟩ := by
        simp only [List.mem_map, eq_comm]
      rw [findMatchesInNodes, List.mem_append, List.mem_append, hrun, hinner, ih]
      constructor
      · rintro (hhere | ⟨i, c, hc, hlater⟩)
        · exact ⟨0, n, rfl, hhere⟩
        · refine ⟨i + 1, c, hc, ?_⟩
          rw [show start + (i + 1) = start + 1 + i by omega]
          exact hlater
      · rintro ⟨i, c, hc, hmatch⟩
        cases i with
        | zero =>
            cases hc
            exact Or.inl hmatch
        | succ i =>
            rw [show start + (i + 1) = start + 1 + i by omega] at hmatch
            exact Or.inr ⟨i, c, hc, hmatch⟩

/-- A match below a node is one of the node itself, one of a run of its statements, or one below
a child. -/
theorem Node.mem_findMatches_iff
    {p : Pattern} {site : Option Site} {n : Node}
    (hdistinct : n.fields.Nodup)
    {m : Match} :
    m ∈ n.findMatches p site ↔
      p.matchNode? site n = some m ∨
      (∃ field items start, n.slot? field = some (.list items) ∧
        n.kind.hasStatementList field = true ∧ start < items.length ∧
        p.matchRun? field start (items.drop start) = some m) ∨
      ∃ step c inner, n.childAt? step = some c ∧
        inner ∈ c.findMatches p (some ⟨n, step.field⟩) ∧ m = inner.under step := by
  rw [Node.findMatches_eq, List.mem_append, Option.mem_toList, mem_findMatchesInSlots_iff]
  refine or_congr Iff.rfl ?_
  constructor
  · rintro ⟨⟨field, slot⟩, hentry, hm⟩
    have hslot := (Node.slot?_eq_some_iff hdistinct).mpr hentry
    cases slot with
    | node c =>
        obtain ⟨inner, hinner, rfl⟩ := List.mem_map.mp (by simpa [Slot.findMatches] using hm)
        refine Or.inr ⟨⟨field, none⟩, c, inner, ?_, hinner, rfl⟩
        exact Node.childAt?_eq_some_iff.mpr ⟨_, hslot, rfl⟩
    | list items =>
        rw [Slot.findMatches, mem_findMatchesInNodes_iff] at hm
        obtain ⟨i, c, hc, ⟨hlist, hrun⟩ | ⟨inner, hinner, rfl⟩⟩ := hm
        · rw [Nat.zero_add] at hrun
          exact Or.inl ⟨field, items, i, hslot, hlist, (List.getElem?_eq_some_iff.mp hc).1, hrun⟩
        · rw [Nat.zero_add]
          refine Or.inr ⟨⟨field, some i⟩, c, inner, ?_, hinner, rfl⟩
          exact Node.childAt?_eq_some_iff.mpr ⟨_, hslot, hc⟩
    | absent => simp [Slot.findMatches] at hm
    | scalar value => simp [Slot.findMatches] at hm
  · rintro (⟨field, items, start, hslot, hlist, hstart, hrun⟩ |
      ⟨step, c, inner, hstep, hinner, rfl⟩)
    · refine ⟨(field, .list items), Node.mem_slots_of_slot? hslot, ?_⟩
      rw [Slot.findMatches, mem_findMatchesInNodes_iff]
      refine ⟨start, items[start], List.getElem?_eq_getElem hstart, Or.inl ⟨hlist, ?_⟩⟩
      rw [Nat.zero_add]
      exact hrun
    · obtain ⟨slot, hslot, hc⟩ := Node.childAt?_eq_some_iff.mp hstep
      refine ⟨(step.field, slot), Node.mem_slots_of_slot? hslot, ?_⟩
      obtain ⟨field, index⟩ := step
      cases slot <;> cases index <;> simp only [Slot.child?, Option.some.injEq, reduceCtorEq] at hc
      · subst hc
        rw [Slot.findMatches]
        exact List.mem_map_of_mem hinner
      · rename_i items i
        rw [Slot.findMatches, mem_findMatchesInNodes_iff]
        refine ⟨i, c, hc, Or.inr ⟨inner, hinner, ?_⟩⟩
        rw [Nat.zero_add]

/-! ## What is tried at one place -/

/-- A fresh unification of the pattern as a whole with a node. -/
def Pattern.FitsNode (p : Pattern) (n : Node) (bs : Bindings) : Prop :=
  ∃ top, p.fragment.nodes.head? = some top ∧ top.unify p.wildcards n [] = (true, bs)

theorem Pattern.fitNode?_eq_some_iff {p : Pattern} {n : Node} {bs : Bindings} :
    p.fitNode? n = some bs ↔ p.FitsNode n bs := by
  simp only [Pattern.fitNode?, Pattern.FitsNode, Option.bind_eq_bind, Option.bind_eq_some_iff]
  refine exists_congr fun top => and_congr_right fun _ => ?_
  obtain ⟨fits, found⟩ := top.unify p.wildcards n []
  cases fits <;> simp

theorem Pattern.matchNode?_eq_some_iff
    {p : Pattern} {site : Option Site} {n : Node} {m : Match} :
    p.matchNode? site n = some m ↔
      p.isEligible site n = true ∧ p.FitsNode n m.bindings ∧
        m = ⟨m.bindings, .node [], n.span.start, n.span.stop⟩ := by
  unfold Pattern.matchNode?
  by_cases heligible : p.isEligible site n = true
  · simp only [heligible, if_true, Option.map_eq_some_iff, Pattern.fitNode?_eq_some_iff,
      true_and]
    constructor
    · rintro ⟨bs, hfits, rfl⟩
      exact ⟨hfits, rfl⟩
    · rintro ⟨hfits, hm⟩
      exact ⟨m.bindings, hfits, hm.symm⟩
  · simp [heligible]

theorem length_eq_of_unifySequence
    {w : Wildcards} {ps cs : List Node} {bs bs' : Bindings}
    (hfits : unifySequence w ps cs bs = (true, bs')) :
    ps.length = cs.length := by
  unfold unifySequence at hfits
  split at hfits
  next hlength => exact hlength
  next => simp at hfits

theorem Pattern.matchRun?_eq_some
    {p : Pattern} {field : Field} {start : Nat} {items : List Node} {m : Match}
    (hm : p.matchRun? field start items = some m) :
    ∃ body, p.fragment = .statements body ∧ body ≠ [] ∧ body.length ≤ items.length ∧
      unifySequence p.wildcards body (items.take body.length) = (true, m.bindings) ∧
      m.region = .run [] field start body.length := by
  unfold Pattern.matchRun? at hm
  cases hfragment : p.fragment with
  | expression root => simp [hfragment] at hm
  | statements body =>
      cases hunify : unifySequence p.wildcards body (items.take body.length) with
      | mk fits bs =>
          simp only [hfragment, hunify] at hm
          cases hfits : fits with
          | false => simp [hfits] at hm
          | true =>
              rw [hfits] at hunify
              have hlength := length_eq_of_unifySequence hunify
              cases hhead : (items.take body.length).head? with
              | none => simp [hfits, hhead] at hm
              | some first =>
                  cases hlast : (items.take body.length).getLast? with
                  | none => simp [hfits, hhead, hlast] at hm
                  | some last =>
                      simp only [hfits, hhead, hlast, Option.some.injEq] at hm
                      subst hm
                      refine ⟨body, rfl, ?_, ?_, hunify,
                        congrArg (Region.run [] field start) hlength.symm⟩
                      · rintro rfl
                        simp at hhead
                      · rw [List.length_take] at hlength
                        omega

theorem Pattern.exists_matchRun?
    (field : Field) (start : Nat)
    {p : Pattern} {items body : List Node} {bs : Bindings}
    (hfragment : p.fragment = .statements body)
    (hbody : body ≠ [])
    (hunify : unifySequence p.wildcards body (items.take body.length) = (true, bs)) :
    ∃ m, p.matchRun? field start items = some m ∧
      m.region = .run [] field start body.length ∧ m.bindings = bs := by
  have hlength := length_eq_of_unifySequence hunify
  have hrun : items.take body.length ≠ [] := by
    intro hnil
    rw [hnil, List.length_nil, List.length_eq_zero_iff] at hlength
    exact hbody hlength
  unfold Pattern.matchRun?
  simp only [hfragment, hunify, List.head?_eq_some_head hrun,
    List.getLast?_eq_some_getLast hrun]
  exact ⟨_, rfl, congrArg (Region.run [] field start) hlength.symm, rfl⟩

/-! ## Which regions are found -/

theorem Region.under_eq_under_iff {a b : Region} {step step' : Step} :
    a.under step = b.under step' ↔ step = step' ∧ a = b := by
  cases a <;> cases b <;> simp [Region.under, and_assoc]

theorem Region.under_ne_node_nil (region : Region) (step : Step) :
    region.under step ≠ .node [] := by
  cases region <;> simp [Region.under]

theorem Region.under_ne_run_nil
    (region : Region) (step : Step) (field : Field) (start length : Nat) :
    region.under step ≠ .run [] field start length := by
  cases region <;> simp [Region.under]

/-- What is found below a step is what is found in the child there. -/
theorem Node.exists_match_under_iff
    {p : Pattern} {root : Node} {outer : Option Site} {step : Step} {region : Region}
    {bs : Bindings}
    (hdistinct : root.fields.Nodup) :
    (∃ m ∈ root.findMatches p outer, m.region = region.under step ∧ m.bindings = bs) ↔
      ∃ c, root.childAt? step = some c ∧
        ∃ m ∈ c.findMatches p (some ⟨root, step.field⟩), m.region = region ∧ m.bindings = bs := by
  simp only [Node.mem_findMatches_iff hdistinct]
  constructor
  · rintro ⟨m, hm | ⟨field, items, start, -, -, -, hrun⟩ | ⟨step', c, inner, hstep, hinner, rfl⟩,
      hregion, rfl⟩
    · obtain ⟨-, -, hm⟩ := Pattern.matchNode?_eq_some_iff.mp hm
      rw [hm] at hregion
      exact absurd hregion.symm (Region.under_ne_node_nil region step)
    · obtain ⟨body, -, -, -, -, hrun⟩ := Pattern.matchRun?_eq_some hrun
      rw [hrun] at hregion
      exact absurd hregion.symm (Region.under_ne_run_nil region step _ _ _)
    · obtain ⟨rfl, hinnerRegion⟩ := Region.under_eq_under_iff.mp hregion
      exact ⟨c, hstep, inner, hinner, hinnerRegion, rfl⟩
  · rintro ⟨c, hstep, inner, hinner, rfl, rfl⟩
    exact ⟨inner.under step, Or.inr (Or.inr ⟨step, c, inner, hstep, hinner, rfl⟩), rfl, rfl⟩

/-- A node is found exactly when the pattern may be tried there and fits it. -/
theorem Node.exists_node_match_iff
    {p : Pattern} {root : Node}
    (hroot : root.DistinctFields)
    {outer : Option Site} {path : Path} {bs : Bindings} :
    (∃ m ∈ root.findMatches p outer, m.region = .node path ∧ m.bindings = bs) ↔
      ∃ n, Path.resolve? path root = some n ∧
        p.isEligible ((Path.site? path root).or outer) n = true ∧ p.FitsNode n bs := by
  induction path generalizing root outer with
  | nil =>
      simp only [Node.mem_findMatches_iff hroot.here, Path.resolve?_nil, Option.some.injEq,
        Path.site?_nil, Option.none_or, exists_eq_left']
      constructor
      · rintro ⟨m, hm | ⟨field, items, start, -, -, -, hrun⟩ | ⟨step, c, inner, -, -, rfl⟩,
          hregion, rfl⟩
        · obtain ⟨heligible, hfits, -⟩ := Pattern.matchNode?_eq_some_iff.mp hm
          exact ⟨heligible, hfits⟩
        · obtain ⟨body, -, -, -, -, hrun⟩ := Pattern.matchRun?_eq_some hrun
          rw [hrun] at hregion
          contradiction
        · exact absurd hregion (Region.under_ne_node_nil _ _)
      · rintro ⟨heligible, hfits⟩
        refine ⟨⟨bs, .node [], root.span.start, root.span.stop⟩, Or.inl ?_, rfl, rfl⟩
        exact Pattern.matchNode?_eq_some_iff.mpr ⟨heligible, hfits, rfl⟩
  | cons step rest ih =>
      have hregion : Region.node (step :: rest) = (Region.node rest).under step := rfl
      rw [hregion, Node.exists_match_under_iff hroot.here, Path.resolve?_cons]
      constructor
      · rintro ⟨c, hstep, hinner⟩
        obtain ⟨n, hn, heligible, hfits⟩ := (ih (hroot.childAt hstep)).mp hinner
        refine ⟨n, ?_, ?_, hfits⟩
        · rw [hstep]
          exact hn
        · rw [Path.site?_cons_or hstep hn]
          exact heligible
      · rintro ⟨n, hn, heligible, hfits⟩
        obtain ⟨c, hstep, hrest⟩ := Option.bind_eq_some_iff.mp hn
        rw [Path.site?_cons_or hstep hrest] at heligible
        exact ⟨c, hstep, (ih (hroot.childAt hstep)).mpr ⟨n, hrest, heligible, hfits⟩⟩

/-- A run is found exactly when it lies in a statement list and the pattern fits it. -/
theorem Node.exists_run_match_iff
    {p : Pattern}
    (hnodes : p.fragment.nodes ≠ [])
    {root : Node}
    (hroot : root.DistinctFields)
    {outer : Option Site} {parent : Path} {field : Field} {start length : Nat} {bs : Bindings} :
    (∃ m ∈ root.findMatches p outer,
        m.region = .run parent field start length ∧ m.bindings = bs) ↔
      ∃ n items body, Path.resolve? parent root = some n ∧
        n.kind.hasStatementList field = true ∧ n.slot? field = some (.list items) ∧
        p.fragment = .statements body ∧ length = body.length ∧
        start + length ≤ items.length ∧
        unifySequence p.wildcards body ((items.drop start).take length) = (true, bs) := by
  induction parent generalizing root outer with
  | nil =>
      simp only [Node.mem_findMatches_iff hroot.here, Path.resolve?_nil, Option.some.injEq]
      constructor
      · rintro ⟨m, hm | ⟨f, items, i, hslot, hlist, hi, hrun⟩ | ⟨step, c, inner, -, -, rfl⟩,
          hregion, rfl⟩
        · obtain ⟨-, -, hm⟩ := Pattern.matchNode?_eq_some_iff.mp hm
          rw [hm] at hregion
          contradiction
        · obtain ⟨body, hfragment, -, hlength, hunify, hrun⟩ := Pattern.matchRun?_eq_some hrun
          rw [hrun] at hregion
          obtain ⟨-, rfl, rfl, rfl⟩ := Region.run.inj hregion
          rw [List.length_drop] at hlength
          exact ⟨root, items, body, rfl, hlist, hslot, hfragment, rfl, by omega, hunify⟩
        · exact absurd hregion (Region.under_ne_run_nil _ _ _ _ _)
      · rintro ⟨n, items, body, rfl, hlist, hslot, hfragment, rfl, hlength, hunify⟩
        have hbody : body ≠ [] := by
          rw [hfragment] at hnodes
          exact hnodes
        have hpositive := List.length_pos_of_ne_nil hbody
        obtain ⟨m, hm, hregion, hbindings⟩ :=
          Pattern.exists_matchRun? field start hfragment hbody hunify
        exact ⟨m, Or.inr (Or.inl ⟨field, items, start, hslot, hlist, by omega, hm⟩),
          hregion, hbindings⟩
  | cons step rest ih =>
      have hregion : Region.run (step :: rest) field start length =
          (Region.run rest field start length).under step := rfl
      rw [hregion, Node.exists_match_under_iff hroot.here, Path.resolve?_cons]
      constructor
      · rintro ⟨c, hstep, hinner⟩
        rw [hstep]
        exact (ih (hroot.childAt hstep)).mp hinner
      · rintro ⟨n, items, body, hn, hfound⟩
        obtain ⟨c, hstep, hrest⟩ := Option.bind_eq_some_iff.mp hn
        exact ⟨c, hstep, (ih (hroot.childAt hstep)).mpr ⟨n, items, body, hrest, hfound⟩⟩

/-! ## The order of the matches -/

theorem anchor_of_mem_findMatchesInNodes
    {p : Pattern} {site : Site} {start : Nat} {ns : List Node} {m : Match}
    (hm : m ∈ findMatchesInNodes p site start ns) :
    ∃ i rest, start ≤ i ∧ m.region.anchor = ⟨site.field, some i⟩ :: rest := by
  obtain ⟨i, c, -, ⟨-, hrun⟩ | ⟨inner, -, rfl⟩⟩ := mem_findMatchesInNodes_iff.mp hm
  · obtain ⟨body, -, -, -, -, hregion⟩ := Pattern.matchRun?_eq_some hrun
    exact ⟨start + i, [], by omega, by rw [hregion]; rfl⟩
  · exact ⟨start + i, inner.region.anchor, by omega, Region.anchor_under _ _⟩

theorem anchor_of_mem_slot
    {p : Pattern} {site : Site} {slot : Slot} {m : Match}
    (hm : m ∈ slot.findMatches p site) :
    ∃ index rest, m.region.anchor = ⟨site.field, index⟩ :: rest := by
  cases slot with
  | node n =>
      obtain ⟨inner, -, rfl⟩ := List.mem_map.mp (by simpa [Slot.findMatches] using hm)
      exact ⟨none, inner.region.anchor, Region.anchor_under _ _⟩
  | list ns =>
      rw [Slot.findMatches] at hm
      obtain ⟨i, rest, -, hanchor⟩ := anchor_of_mem_findMatchesInNodes hm
      exact ⟨some i, rest, hanchor⟩
  | absent => simp [Slot.findMatches] at hm
  | scalar value => simp [Slot.findMatches] at hm

/-- A run stands before all matches inside its first item. -/
theorem Region.run_before_item
    {n c : Node} {field : Field} {start length : Nat}
    (hitem : n.childAt? ⟨field, some start⟩ = some c)
    (inner : Region) :
    Region.Before n (.run [] field start length) (inner.under ⟨field, some start⟩) := by
  cases hanchor : inner.anchor with
  | nil =>
      right
      have hnode : inner.isRun = false := by
        cases hrun : inner.isRun with
        | false => rfl
        | true => exact absurd hanchor (Region.anchor_ne_nil_of_isRun hrun)
      simp [hnode, hanchor]
  | cons step rest =>
      left
      simpa [hanchor] using Node.Precedes.inside hitem Node.Precedes.above

theorem pairwise_findMatchesInNodes
    {p : Pattern} {n : Node} {field : Field} {items : List Node}
    (hslot : n.slot? field = some (.list items))
    (hitems : ∀ c ∈ items, ∀ site,
      (c.findMatches p site).Pairwise fun a b => Region.Before c a.region b.region)
    (front rest : List Node)
    (hsplit : items = front ++ rest) :
    (findMatchesInNodes p ⟨n, field⟩ front.length rest).Pairwise
      fun a b => Region.Before n a.region b.region := by
  induction rest generalizing front with
  | nil => simp [findMatchesInNodes]
  | cons c rest ih =>
      have hitem : n.childAt? ⟨field, some front.length⟩ = some c := by
        refine Node.childAt?_eq_some_iff.mpr ⟨_, hslot, ?_⟩
        simp [Slot.child?, hsplit]
      have hlater : ∀ (a : Match) rest', a.region.anchor = ⟨field, some front.length⟩ :: rest' →
          ∀ b ∈ findMatchesInNodes p ⟨n, field⟩ (front.length + 1) rest,
            Region.Before n a.region b.region := by
        intro a rest' ha b hb
        obtain ⟨i, rest'', hi, hb⟩ := anchor_of_mem_findMatchesInNodes hb
        left
        rw [ha, hb]
        exact .beside (Or.inr ⟨rfl, _, _, rfl, rfl, by omega⟩)
      have hrun : ∀ m ∈ (if n.kind.hasStatementList field then
          (p.matchRun? field front.length (c :: rest)).toList else []),
          ∃ length, m.region = .run [] field front.length length := by
        intro m hm
        split at hm
        next =>
          obtain ⟨body, -, -, -, -, hregion⟩ :=
            Pattern.matchRun?_eq_some (Option.mem_toList.mp hm)
          exact ⟨_, hregion⟩
        next => simp at hm
      -- the run that starts here, the matches inside the item, the matches behind it
      rw [findMatchesInNodes, List.append_assoc, List.pairwise_append, List.pairwise_append]
      refine ⟨?_, ⟨?_, ?_, ?_⟩, ?_⟩
      · split
        · cases p.matchRun? field front.length (c :: rest) <;> simp
        · exact .nil
      · rw [List.pairwise_map]
        exact (hitems c (by simp [hsplit]) _).imp fun hbefore => hbefore.under hitem
      · have hnext := ih (front ++ [c]) (by simp [hsplit])
        rwa [List.length_append] at hnext
      · intro a ha b hb
        obtain ⟨inner, -, rfl⟩ := List.mem_map.mp ha
        exact hlater _ _ (Region.anchor_under _ _) b hb
      · intro a ha b hb
        obtain ⟨length, hregion⟩ := hrun a ha
        rcases List.mem_append.mp hb with hb | hb
        · obtain ⟨inner, -, rfl⟩ := List.mem_map.mp hb
          rw [hregion]
          exact Region.run_before_item hitem inner.region
        · exact hlater a [] (by rw [hregion]; rfl) b hb

theorem idxOf_lt_of_nodup
    {front rest : List Field} {a b : Field}
    (hdistinct : (front ++ a :: rest).Nodup) (hb : b ∈ rest) :
    (front ++ a :: rest).idxOf a < (front ++ a :: rest).idxOf b := by
  have hparts := List.nodup_append.mp hdistinct
  have hfirst : a ∉ front := fun ha => hparts.2.2 a ha a (by simp) rfl
  have hsecond : b ∉ front := fun hbf => hparts.2.2 b hbf b (by simp [hb]) rfl
  have hne : a ≠ b := by
    rintro rfl
    exact (List.nodup_cons.mp hparts.2.1).1 hb
  rw [List.idxOf_append, List.idxOf_append, if_neg hfirst, if_neg hsecond,
    List.idxOf_cons_self, List.idxOf_cons_ne _ hne]
  omega

theorem pairwise_findMatchesInSlots
    {p : Pattern} {n : Node}
    (hdistinct : n.fields.Nodup)
    (hchildren : ∀ entry ∈ n.slots, ∀ c ∈ entry.2.children, ∀ site,
      (c.findMatches p site).Pairwise fun a b => Region.Before c a.region b.region)
    (front rest : List (Field × Slot))
    (hsplit : n.slots = front ++ rest) :
    (findMatchesInSlots p n rest).Pairwise fun a b => Region.Before n a.region b.region := by
  induction rest generalizing front with
  | nil => simp [findMatchesInSlots]
  | cons entry rest ih =>
      obtain ⟨field, slot⟩ := entry
      have hentry : (field, slot) ∈ n.slots := by simp [hsplit]
      have hslot := (Node.slot?_eq_some_iff hdistinct).mpr hentry
      rw [findMatchesInSlots, List.pairwise_append]
      refine ⟨?_, ih (front ++ [(field, slot)]) (by simp [hsplit]), ?_⟩
      · cases slot with
        | node c =>
            have hitem : n.childAt? ⟨field, none⟩ = some c :=
              Node.childAt?_eq_some_iff.mpr ⟨_, hslot, rfl⟩
            rw [Slot.findMatches, List.pairwise_map]
            exact (hchildren _ hentry c (by simp [Slot.children]) _).imp
              fun hbefore => hbefore.under hitem
        | list items =>
            rw [Slot.findMatches]
            exact pairwise_findMatchesInNodes hslot (hchildren _ hentry) [] items rfl
        | absent => simp [Slot.findMatches]
        | scalar value => simp [Slot.findMatches]
      · intro a ha b hb
        obtain ⟨⟨later, slot'⟩, hlater, hb⟩ := mem_findMatchesInSlots_iff.mp hb
        obtain ⟨i, rest', ha⟩ := anchor_of_mem_slot ha
        obtain ⟨j, rest'', hb⟩ := anchor_of_mem_slot hb
        left
        rw [ha, hb]
        refine .beside (Or.inl ?_)
        have hfields : n.fields = front.map Prod.fst ++ field :: rest.map Prod.fst := by
          simp [Node.fields, hsplit]
        rw [hfields] at hdistinct ⊢
        exact idxOf_lt_of_nodup hdistinct (List.mem_map.mpr ⟨_, hlater, rfl⟩)

/-- The matches below a node are listed in document order. -/
theorem Node.pairwise_findMatches
    {p : Pattern} {n : Node}
    (hn : n.DistinctFields)
    (site : Option Site) :
    (n.findMatches p site).Pairwise fun a b => Region.Before n a.region b.region := by
  induction n using Node.childInduction generalizing site with
  | hparent n ih =>
      have hslots := pairwise_findMatchesInSlots (p := p) hn.here
        (fun entry hentry c hc => ih entry hentry c hc (hn.child hentry hc)) [] n.slots rfl
      rw [Node.findMatches_eq, List.pairwise_append]
      refine ⟨?_, hslots, ?_⟩
      · cases p.matchNode? site n <;> simp
      · intro a ha b hb
        obtain ⟨-, -, ha⟩ := Pattern.matchNode?_eq_some_iff.mp (Option.mem_toList.mp ha)
        obtain ⟨⟨field, slot⟩, -, hb⟩ := mem_findMatchesInSlots_iff.mp hb
        obtain ⟨index, rest, hb⟩ := anchor_of_mem_slot hb
        left
        rw [ha, hb]
        exact .above

/-! ## The matches of a compiled pattern -/

/-- The matches of a compiled pattern in a tree without repeated fields.  A node is listed exactly
when the pattern may be tried where it stands and a fresh unification succeeds; a run exactly when
it is a run of a statement list, as long as the pattern, on which a fresh unification succeeds.
Each region is listed once, with the bindings of that unification, and in document order. -/
theorem Pattern.findAll_complete_in_document_order
    {text : String} {p : Pattern}
    (hcompile : Pattern.compile text = .ok p)
    {root : Node}
    (hroot : root.DistinctFields) :
    (∀ path bs,
      (∃ m ∈ p.findAll root, m.region = .node path ∧ m.bindings = bs) ↔
        ∃ n top, Path.resolve? path root = some n ∧
          p.isEligible (Path.site? path root) n = true ∧
          p.fragment.nodes.head? = some top ∧ top.unify p.wildcards n [] = (true, bs)) ∧
    (∀ parent field start length bs,
      (∃ m ∈ p.findAll root,
          m.region = .run parent field start length ∧ m.bindings = bs) ↔
        ∃ n items body, Path.resolve? parent root = some n ∧
          n.kind.hasStatementList field = true ∧ n.slot? field = some (.list items) ∧
          p.fragment = .statements body ∧ length = body.length ∧
          start + length ≤ items.length ∧
          unifySequence p.wildcards body ((items.drop start).take length) = (true, bs)) ∧
    ((p.findAll root).map Match.region).Nodup ∧
    (p.findAll root).Pairwise fun a b => Region.Before root a.region b.region := by
  have hordered : (p.findAll root).Pairwise fun a b => Region.Before root a.region b.region :=
    Node.pairwise_findMatches hroot none
  refine ⟨fun path bs => ?_, fun parent field start length bs => ?_, ?_, hordered⟩
  · unfold Pattern.findAll
    rw [Node.exists_node_match_iff hroot, Option.or_none]
    simp only [Pattern.FitsNode, exists_and_left]
  · exact Node.exists_run_match_iff (Pattern.nodes_ne_nil_of_compile hcompile) hroot
  · rw [List.Nodup, List.pairwise_map]
    exact hordered.imp fun hbefore heq => by
      rw [heq] at hbefore
      exact hbefore.irrefl

/-- A name as a statement, in a program with a block. -/
theorem Pattern.findAll_nested_blocks :
    ∃ p root, Pattern.compile "a;" = .ok p ∧ parse "x;\x7by;z\x7d" = .ok root ∧
      root.DistinctFields ∧
      (p.findAll root).map Match.region =
        [.run [] .body 0 1, .run [⟨.body, some 1⟩] .body 0 1, .run [⟨.body, some 1⟩] .body 1 1] ∧
      ((p.findAll root).map Match.region).Nodup ∧
      (p.findAll root).Pairwise fun a b => Region.Before root a.region b.region := by
  have hrun :
      (match Pattern.compile "a;", parse "x;\x7by;z\x7d" with
        | .ok p, .ok root =>
          decide (root.All fun n => n.fields.Nodup) &&
            (p.findAll root).map Match.region ==
              [.run [] .body 0 1, .run [⟨.body, some 1⟩] .body 0 1,
                .run [⟨.body, some 1⟩] .body 1 1]
        | _, _ => false) = true := by
    decide +kernel
  split at hrun
  next p root hp hroot =>
    rw [Bool.and_eq_true, decide_eq_true_iff, beq_iff_eq] at hrun
    exact ⟨p, root, hp, hroot, hrun.1, hrun.2,
      (Pattern.findAll_complete_in_document_order hp hrun.1).2.2⟩
  next => contradiction

end Graft
