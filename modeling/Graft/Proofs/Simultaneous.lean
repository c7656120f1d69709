import Graft.Proofs.FindAll
import Graft.Proofs.Overwrite
import Mathlib.Data.List.Forall2

/-!
# A rule replaces all its matches at once

`Rule.transform` splices the selected matches from the last to the first.  Each of them is still in
place when its turn comes, so the result is that of one pass over the tree in which every selected
region is replaced by what its own bindings give, fitted into the place where it stands in the
tree before any change.
-/

namespace Graft

/-- The nodes that a replacement puts in the place of a region, if it fits there. -/
def Replacement.fitInto (root : Node) (region : Region) (r : Replacement) :
    Except EditError (List Node) :=
  match region with
  | .node path =>
    match Path.site? path root with
    | none => do return [← r.toNode false]
    | some site => do
      let child ← r.toNode (site.parent.kind.hasStatementSlot site.field)
      checkSlot site.parent site.field child
      return [child]
  | .run _ _ _ _ => .ok r.toStatements

/-- What a rule puts in the place of a match: the template under the bindings of the match, fitted
into the tree in which the match was found. -/
def Rule.replacementFor (rule : Rule) (root : Node) (m : Match) : Except EditError (List Node) := do
  (← rule.template.instantiate m.bindings).fitInto root m.region

/-- The edits of some matches; the last match that fails decides the error. -/
def Rule.editsFor (rule : Rule) (root : Node) : List Match → Except EditError (List Edit)
  | [] => .ok []
  | m :: ms => do
    let edits ← rule.editsFor root ms
    let body ← rule.replacementFor root m
    return ⟨m.region, body⟩ :: edits

/-! ## The region of a match -/

/-- The region exists in a tree. -/
def Region.Within (root : Node) : Region → Prop
  | .node path => ∃ n, Path.resolve? path root = some n
  | .run parent field start length => 0 < length ∧
    ∃ n items, Path.resolve? parent root = some n ∧ n.slot? field = some (.list items) ∧
      start + length ≤ items.length

theorem Region.Within.under
    {n c : Node} {step : Step} {region : Region}
    (hstep : n.childAt? step = some c) (hwithin : region.Within c) :
    (region.under step).Within n := by
  cases region with
  | node path =>
      obtain ⟨found, hfound⟩ := hwithin
      refine ⟨found, ?_⟩
      rw [Path.resolve?_cons, hstep]
      exact hfound
  | run parent field start length =>
      obtain ⟨hlength, found, items, hfound, hitems⟩ := hwithin
      refine ⟨hlength, found, items, ?_, hitems⟩
      rw [Path.resolve?_cons, hstep]
      exact hfound

theorem Node.within_of_mem_findMatches
    {p : Pattern} {n : Node}
    (hn : n.DistinctFields)
    {site : Option Site} {m : Match}
    (hm : m ∈ n.findMatches p site) :
    m.region.Within n := by
  induction n using Node.childInduction generalizing site m with
  | hparent n ih =>
      rcases (Node.mem_findMatches_iff hn.here).mp hm with
        hhere | ⟨field, items, start, hslot, -, hstart, hrun⟩ | ⟨step, c, inner, hstep, hinner, rfl⟩
      · obtain ⟨-, -, hm⟩ := Pattern.matchNode?_eq_some_iff.mp hhere
        rw [hm]
        exact ⟨n, rfl⟩
      · obtain ⟨body, -, hbody, hlength, -, hregion⟩ := Pattern.matchRun?_eq_some hrun
        rw [hregion]
        rw [List.length_drop] at hlength
        exact ⟨List.length_pos_of_ne_nil hbody, n, items, rfl, hslot, by omega⟩
      · obtain ⟨slot, hslot, hc⟩ := Node.childAt?_eq_some_iff.mp hstep
        refine Region.Within.under hstep ?_
        exact ih _ (Node.mem_slots_of_slot? hslot) c (Slot.mem_children_of_child? hc)
          (hn.childAt hstep) hinner

/-! ## Matches that are selected -/

theorem selectFrom_sublist (kept : List Region) (ms : List Match) :
    (selectFrom kept ms).Sublist ms := by
  induction ms generalizing kept with
  | nil => exact .slnil
  | cons m ms ih =>
      rw [selectFrom]
      split
      · exact (ih kept).cons m
      · exact (ih (m.region :: kept)).cons_cons m

theorem not_overlaps_of_mem_selectFrom
    {kept : List Region} {ms : List Match} {m : Match}
    (hm : m ∈ selectFrom kept ms)
    {region : Region}
    (hregion : region ∈ kept) :
    region.overlaps m.region = false := by
  induction ms generalizing kept with
  | nil => simp [selectFrom] at hm
  | cons first ms ih =>
      rw [selectFrom] at hm
      split at hm
      next => exact ih hm hregion
      next hclear =>
        rcases List.mem_cons.mp hm with rfl | hrest
        · simp only [List.any_eq_true, not_exists, not_and, Bool.not_eq_true] at hclear
          exact hclear region hregion
        · exact ih hrest (List.mem_cons_of_mem _ hregion)

theorem pairwise_selectFrom (kept : List Region) (ms : List Match) :
    (selectFrom kept ms).Pairwise fun a b => a.region.overlaps b.region = false := by
  induction ms generalizing kept with
  | nil => exact .nil
  | cons m ms ih =>
      rw [selectFrom]
      split
      · exact ih kept
      · exact .cons (fun later hlater => not_overlaps_of_mem_selectFrom hlater (by simp))
          (ih (m.region :: kept))

theorem Region.not_prefix_of_not_overlaps
    {a b : Region}
    (hdisjoint : a.overlaps b = false)
    {p q : Path}
    (hp : p ∈ a.roots) (hq : q ∈ b.roots) :
    ¬ q <+: p := by
  intro hprefix
  have hoverlap : a.overlaps b = true := by
    simp only [Region.overlaps, List.any_eq_true]
    refine ⟨p, hp, q, hq, ?_⟩
    simp [Region.comparable, List.isPrefixOf_iff_prefix.mpr hprefix]
  rw [hdisjoint] at hoverlap
  contradiction

theorem Region.mem_roots_run
    {parent : Path} {field : Field} {start length : Nat} {p : Path} :
    p ∈ (Region.run parent field start length).roots ↔
      ∃ j, start ≤ j ∧ j < start + length ∧ p = parent ++ [⟨field, some j⟩] := by
  simp only [Region.roots, List.mem_map, List.mem_range'_1, and_assoc, eq_comm]

/-- A region that comes first in a tree and does not overlap another one is left in place when the
other one is replaced. -/
theorem Region.clear_of_before
    {root : Node} {a b : Region}
    (hbefore : Region.Before root a b) (hdisjoint : a.overlaps b = false) (hb : b.Within root) :
    Region.Clear a b := by
  cases b with
  | node path =>
      intro p hp
      exact Region.not_prefix_of_not_overlaps hdisjoint hp (by simp [Region.roots])
  | run parent field start length =>
      intro p hp i rest heq
      have hprecedes : root.Precedes a.anchor (parent ++ [⟨field, some start⟩]) := by
        rcases hbefore with hprecedes | ⟨-, hnode, -⟩
        · exact hprecedes
        · simp at hnode
      cases a with
      | node path =>
          simp only [Region.roots, List.mem_singleton] at hp
          subst hp
          rw [Region.anchor_node, heq] at hprecedes
          exact hprecedes.index_lt
      | run parent' field' start' length' =>
          obtain ⟨j, hfirst, hlast, hp'⟩ := Region.mem_roots_run.mp hp
          rw [Region.anchor_run] at hprecedes
          rcases List.eq_nil_or_concat rest with rfl | ⟨inner, last, rfl⟩
          · -- both runs lie in the same list
            rw [hp'] at heq
            obtain ⟨rfl, hstep⟩ := List.append_inj' heq rfl
            simp only [List.cons.injEq, Step.mk.injEq, Option.some.injEq, and_true] at hstep
            obtain ⟨rfl, rfl⟩ := hstep
            have hlt := hprecedes.index_lt
            by_contra hle
            refine Region.not_prefix_of_not_overlaps hdisjoint
              (p := parent' ++ [⟨field', some start⟩]) ?_ ?_ List.prefix_rfl
            · exact Region.mem_roots_run.mpr ⟨start, by omega, by omega, rfl⟩
            · exact Region.mem_roots_run.mpr ⟨start, by omega, by have := hb.1; omega, rfl⟩
          · -- the first run lies below an item of the list
            rw [hp', List.concat_eq_append, ← List.cons_append, ← List.append_assoc] at heq
            obtain ⟨rfl, -⟩ := List.append_inj' heq rfl
            rw [List.append_assoc, List.cons_append] at hprecedes
            exact hprecedes.index_lt

/-! ## Splicing as one more edit -/

theorem Node.flag_overwrite
    {edits : List Edit}
    (hwhole : edits.findSome? Edit.whole? = none)
    (n : Node) (field : Field) :
    (n.overwrite edits).flag field = n.flag field := by
  simp only [Node.flag, Node.scalar?, Node.slot?_overwrite hwhole]
  cases n.slot? field with
  | none => rfl
  | some slot => cases slot <;> rfl

theorem checkSlot_overwrite
    {edits : List Edit}
    (hwhole : edits.findSome? Edit.whole? = none)
    (parent : Node) (field : Field) (child : Node) :
    checkSlot (parent.overwrite edits) field child = checkSlot parent field child := by
  have hkind : (parent.overwrite edits).kind = parent.kind := by
    rw [Node.overwrite_of_no_whole hwhole, Node.kind_mk]
  simp only [checkSlot, hkind, Node.flag_overwrite hwhole]

theorem Node.overwrite_cons_whole (n new : Node) (edits : List Edit) :
    n.overwrite (⟨.node [], [new]⟩ :: edits) = new :=
  Node.overwrite_of_whole (by rw [List.findSome?_cons]; rfl) n

theorem Node.editSlot?_child_overwrite
    {root n parent child : Node} {front : Path} {last : Step} {edits : List Edit}
    (hroot : root.DistinctFields)
    (hparent : Path.resolve? front root = some parent)
    (hn : parent.childAt? last = some n)
    (hclear : ∀ e ∈ edits, Region.Clear (.node (front ++ [last])) e.region) :
    (root.overwrite edits).editSlot? last.field
        (fun slot => slot.setChild? last.index child) front =
      some (root.overwrite (⟨.node (front ++ [last]), [child]⟩ :: edits)) := by
  obtain ⟨slot, hslot, hc⟩ := Node.childAt?_eq_some_iff.mp hn
  rw [← Region.underPath_node] at hclear ⊢
  refine Node.editSlot?_overwrite hroot hparent hslot (by simp [Region.roots]) rfl hclear ?_
  intro inner hinner
  have hset := (Slot.overwrite_child hc
    (fun i hi j hj => @findSome?_run?_of_clear inner (.node []) last i j (by simp [Region.roots])
      hi hj hinner) (.node []) [child]).2
  rw [Node.overwrite_cons_whole] at hset
  exact hset

/-- Edits that are clear of a run replace no run of the same list that starts before its end. -/
theorem findSome?_run?_of_clear_run
    {edits : List Edit} {field : Field} {start length j : Nat}
    (hlength : 0 < length)
    (hj : j < start + length)
    (hclear : ∀ e ∈ edits, Region.Clear (.run [] field start length) e.region) :
    edits.findSome? (Edit.run? field j) = none := by
  rw [List.findSome?_eq_none_iff]
  intro e he
  cases hrun : Edit.run? field j e with
  | none => rfl
  | some new =>
      have hregion := hclear e he
      rw [Edit.region_of_run? hrun] at hregion
      have hlast : start + length - 1 < j :=
        hregion [⟨field, some (start + length - 1)⟩]
          (Region.mem_roots_run.mpr ⟨_, by omega, by omega, rfl⟩) _ [] rfl
      omega

theorem Node.editSlot?_run_overwrite
    {root parent : Node} {path : Path} {field : Field} {start length : Nat}
    {items body : List Node} {edits : List Edit}
    (hroot : root.DistinctFields)
    (hparent : Path.resolve? path root = some parent)
    (hslot : parent.slot? field = some (.list items))
    (hlength : 0 < length)
    (hbound : start + length ≤ items.length)
    (hclear : ∀ e ∈ edits, Region.Clear (.run path field start length) e.region) :
    (root.overwrite edits).editSlot? field (fun slot => slot.setRun? start length body) path =
      some (root.overwrite (⟨.run path field start length, body⟩ :: edits)) := by
  have hregion : Region.run path field start length =
      (Region.run [] field start length).underPath path := by
    rw [Region.underPath_run, List.append_nil]
  rw [hregion] at hclear ⊢
  refine Node.editSlot?_overwrite hroot hparent hslot ?_ rfl hclear ?_
  · simp [Region.roots]
    omega
  · intro inner hinner
    exact Slot.overwrite_run hlength hbound
      (fun j hj => findSome?_run?_of_clear_run hlength hj hinner) body

/-- Splicing a region of the original tree after edits that are clear of it: the replacement fits
as it would in the original tree, and the result is that of one pass with one more edit. -/
theorem Node.splice_overwrite
    {root : Node}
    (hroot : root.DistinctFields)
    {region : Region}
    (hwithin : region.Within root)
    {edits : List Edit}
    (hclear : ∀ e ∈ edits, Region.Clear region e.region)
    (r : Replacement) :
    (root.overwrite edits).splice region r =
      (r.fitInto root region).map fun body => root.overwrite (⟨region, body⟩ :: edits) := by
  cases region with
  | node path =>
      rcases List.eq_nil_or_concat path with rfl | ⟨front, last, rfl⟩
      · simp only [Node.splice, List.getLast?_nil, Replacement.fitInto, Path.site?_nil]
        cases r.toNode false with
        | error e => rfl
        | ok new => exact congrArg Except.ok (Node.overwrite_cons_whole root new edits).symm
      · rw [List.concat_eq_append] at hwithin hclear ⊢
        obtain ⟨n, hn⟩ := hwithin
        obtain ⟨parent, hparent, hchild⟩ := Path.resolve?_append_singleton_eq_some hn
        obtain ⟨inner, hresolve, hwhole⟩ :=
          Path.resolve?_overwrite (.node [last]) hparent (by simp [Region.roots])
            (by rw [Region.underPath_node]; exact hclear)
        have hkind : (parent.overwrite inner).kind = parent.kind := by
          rw [Node.overwrite_of_no_whole hwhole, Node.kind_mk]
        have hedit := fun child =>
          @Node.editSlot?_child_overwrite root n parent child front last edits hroot hparent
            hchild hclear
        simp only [Node.splice, List.getLast?_concat, List.dropLast_concat, hresolve, hkind,
          checkSlot_overwrite hwhole, hedit, Replacement.fitInto,
          Path.site?_append_singleton, hparent, Option.map_some]
        cases r.toNode (parent.kind.hasStatementSlot last.field) with
        | error e => rfl
        | ok child =>
            simp only [bind, Except.bind]
            cases checkSlot parent last.field child with
            | error e => rfl
            | ok _ => rfl
  | run path field start length =>
      obtain ⟨hlength, parent, items, hparent, hslot, hbound⟩ := hwithin
      simp only [Node.splice, Replacement.fitInto, Except.map,
        Node.editSlot?_run_overwrite hroot hparent hslot hlength hbound hclear]

/-! ## All selected matches -/

theorem Rule.editsFor_cons_eq_ok_iff
    {rule : Rule} {root : Node} {m : Match} {ms : List Match} {edits : List Edit} :
    rule.editsFor root (m :: ms) = .ok edits ↔
      ∃ rest body, rule.editsFor root ms = .ok rest ∧ rule.replacementFor root m = .ok body ∧
        edits = ⟨m.region, body⟩ :: rest := by
  simp only [Rule.editsFor, bind_eq_ok_iff]
  constructor
  · rintro ⟨rest, hrest, body, hbody, hedits⟩
    cases hedits
    exact ⟨rest, body, hrest, hbody, rfl⟩
  · rintro ⟨rest, body, hrest, hbody, rfl⟩
    exact ⟨rest, hrest, body, hbody, rfl⟩

theorem Rule.forall₂_editsFor
    {rule : Rule} {root : Node} {ms : List Match} {edits : List Edit}
    (hedits : rule.editsFor root ms = .ok edits) :
    List.Forall₂ (fun m e => e.region = m.region ∧ rule.replacementFor root m = .ok e.body)
      ms edits := by
  induction ms generalizing edits with
  | nil =>
      cases hedits
      exact .nil
  | cons m ms ih =>
      obtain ⟨rest, body, hrest, hbody, rfl⟩ := Rule.editsFor_cons_eq_ok_iff.mp hedits
      exact .cons ⟨rfl, hbody⟩ (ih hrest)

theorem Rule.exists_match_of_mem_editsFor
    {rule : Rule} {root : Node} {ms : List Match} {edits : List Edit}
    (hedits : rule.editsFor root ms = .ok edits)
    {e : Edit}
    (he : e ∈ edits) :
    ∃ m ∈ ms, e.region = m.region ∧ rule.replacementFor root m = .ok e.body := by
  induction ms generalizing edits with
  | nil =>
      cases hedits
      contradiction
  | cons m ms ih =>
      obtain ⟨rest, body, hrest, hbody, rfl⟩ := Rule.editsFor_cons_eq_ok_iff.mp hedits
      rcases List.mem_cons.mp he with rfl | he
      · exact ⟨m, by simp, rfl, hbody⟩
      · obtain ⟨m', hm', hfound⟩ := ih hrest he
        exact ⟨m', List.mem_cons_of_mem m hm', hfound⟩

theorem Rule.exists_editsFor_iff {rule : Rule} {root : Node} {ms : List Match} :
    (∃ edits, rule.editsFor root ms = .ok edits) ↔
      ∀ m ∈ ms, ∃ body, rule.replacementFor root m = .ok body := by
  induction ms with
  | nil => simp [Rule.editsFor]
  | cons m ms ih =>
      simp only [Rule.editsFor_cons_eq_ok_iff, List.forall_mem_cons, ← ih]
      constructor
      · rintro ⟨edits, rest, body, hrest, hbody, -⟩
        exact ⟨⟨body, hbody⟩, rest, hrest⟩
      · rintro ⟨⟨body, hbody⟩, rest, hrest⟩
        exact ⟨_, rest, body, hrest, hbody, rfl⟩

/-- The last match without a fitting replacement decides the error. -/
theorem Rule.editsFor_eq_error_iff
    {rule : Rule} {root : Node} {ms : List Match} {error : EditError} :
    rule.editsFor root ms = .error error ↔
      ∃ earlier m later, ms = earlier ++ m :: later ∧
        rule.replacementFor root m = .error error ∧
        ∀ m' ∈ later, ∃ body, rule.replacementFor root m' = .ok body := by
  induction ms with
  | nil => simp [Rule.editsFor]
  | cons m ms ih =>
      constructor
      · intro herror
        rw [Rule.editsFor] at herror
        cases hms : rule.editsFor root ms with
        | error e =>
            rw [hms] at herror
            cases herror
            obtain ⟨earlier, m', later, hsplit, hlast⟩ := ih.mp hms
            exact ⟨m :: earlier, m', later, by rw [hsplit, List.cons_append], hlast⟩
        | ok rest =>
            refine ⟨[], m, ms, rfl, ?_, Rule.exists_editsFor_iff.mp ⟨rest, hms⟩⟩
            rw [hms] at herror
            cases hm : rule.replacementFor root m with
            | error e =>
                rw [hm] at herror
                cases herror
                rfl
            | ok body =>
                rw [hm] at herror
                cases herror
      · rintro ⟨earlier, m', later, hsplit, hfails, hlater⟩
        cases earlier with
        | nil =>
            obtain ⟨rfl, rfl⟩ := List.cons.inj hsplit
            obtain ⟨rest, hrest⟩ := Rule.exists_editsFor_iff.mpr hlater
            rw [Rule.editsFor, hrest, hfails]
            rfl
        | cons first earlier =>
            obtain ⟨rfl, hms⟩ := List.cons.inj hsplit
            rw [Rule.editsFor, ih.mpr ⟨earlier, m', later, hms, hfails, hlater⟩]
            rfl

/-- Splicing matches from the last to the first is one pass with all their edits. -/
theorem Rule.replaceAll_eq_overwrite
    (rule : Rule)
    {root : Node}
    (hroot : root.DistinctFields)
    {ms : List Match}
    (hwithin : ∀ m ∈ ms, m.region.Within root)
    (hclear : ms.Pairwise fun a b => Region.Clear a.region b.region) :
    rule.replaceAll ms root = (rule.editsFor root ms).map fun edits => root.overwrite edits := by
  induction ms with
  | nil => exact congrArg Except.ok (Node.overwrite_nil root).symm
  | cons m ms ih =>
      obtain ⟨hfirst, hrest⟩ := List.pairwise_cons.mp hclear
      have htree := ih (fun m' hm' => hwithin m' (List.mem_cons_of_mem m hm')) hrest
      rw [Rule.replaceAll, htree, Rule.editsFor]
      cases hedits : rule.editsFor root ms with
      | error e => rfl
      | ok edits =>
          have hregions : ∀ e ∈ edits, Region.Clear m.region e.region := by
            intro e he
            obtain ⟨m', hm', hregion, -⟩ := Rule.exists_match_of_mem_editsFor hedits he
            rw [hregion]
            exact hfirst m' hm'
          simp only [Except.map, bind, Except.bind, Rule.replacementFor]
          cases rule.template.instantiate m.bindings with
          | error e => rfl
          | ok r =>
              simp only
              rw [Node.splice_overwrite hroot (hwithin m (by simp)) hregions]
              cases r.fitInto root m.region <;> rfl

theorem Pattern.pairwise_clear_selectDisjoint
    (p : Pattern)
    {root : Node}
    (hroot : root.DistinctFields) :
    (selectDisjoint (p.findAll root)).Pairwise fun a b => Region.Clear a.region b.region := by
  have hsublist := selectFrom_sublist [] (p.findAll root)
  have hordered := (Node.pairwise_findMatches hroot none).sublist hsublist
  have hdisjoint := pairwise_selectFrom [] (p.findAll root)
  refine (hordered.and hdisjoint).imp_of_mem ?_
  intro a b _ hb hboth
  exact Region.clear_of_before hboth.1 hboth.2
    (Node.within_of_mem_findMatches hroot (hsublist.subset hb))

/-- A rule applied to a tree is one pass with the edits of the selected matches. -/
theorem Rule.transform_eq_overwrite
    (rule : Rule)
    {root : Node}
    (hroot : root.DistinctFields) :
    rule.transform root =
      (rule.editsFor root (selectDisjoint (rule.pattern.findAll root))).map fun edits =>
        ⟨root.overwrite edits, (rule.pattern.findAll root).length,
          (selectDisjoint (rule.pattern.findAll root)).length⟩ := by
  have hwithin : ∀ m ∈ selectDisjoint (rule.pattern.findAll root), m.region.Within root :=
    fun m hm => Node.within_of_mem_findMatches hroot ((selectFrom_sublist [] _).subset hm)
  simp only [Rule.transform]
  rw [Rule.replaceAll_eq_overwrite rule hroot hwithin
    (rule.pattern.pairwise_clear_selectDisjoint hroot)]
  cases rule.editsFor root (selectDisjoint (rule.pattern.findAll root)) <;> rfl

/-! ## No place is missing -/

/-- The computation does not fail for want of a place. -/
def FindsPlace {α : Type} (x : Except EditError α) : Prop := x ≠ .error .noSuchPlace

theorem FindsPlace.ok {α : Type} (a : α) : FindsPlace (.ok a : Except EditError α) :=
  fun h => nomatch h

theorem FindsPlace.bind
    {α β : Type} {x : Except EditError α} {f : α → Except EditError β}
    (hx : FindsPlace x) (hf : ∀ a, FindsPlace (f a)) :
    FindsPlace (x >>= f) := by
  cases x with
  | error e => exact fun h => hx (by cases h; rfl)
  | ok a => exact hf a

theorem findsPlace_single (expansion : Expansion) : FindsPlace expansion.single := by
  cases expansion <;> exact fun h => nomatch h

theorem findsPlace_checkSlot (parent : Node) (field : Field) (child : Node) :
    FindsPlace (checkSlot parent field child) := by
  unfold checkSlot
  split
  · exact .ok ()
  · exact fun h => nomatch h

theorem findsPlace_forM_checkSlot
    (parent : Node) (field : Field) (children : List Node) :
    FindsPlace (children.forM (checkSlot parent field)) := by
  induction children with
  | nil => exact .ok ()
  | cons c rest ih => exact (findsPlace_checkSlot parent field c).bind fun _ => ih

mutual

theorem Node.findsPlace_expand (bs : Bindings) :
    (n : Node) → FindsPlace (n.expand bs)
  | .mk kind span slots => by
    rw [Node.expand]
    split
    · exact .ok _
    · exact (findsPlace_expandSlots bs _ slots).bind fun _ => .ok _
termination_by structural n => n

theorem Slot.findsPlace_expand (bs : Bindings) (parent : Node) (field : Field) :
    (slot : Slot) → FindsPlace (slot.expand bs parent field)
  | .node n => by
    rw [Slot.expand]
    split
    · exact .ok _
    · exact (n.findsPlace_expand bs).bind fun expansion =>
        (findsPlace_single expansion).bind fun child =>
          (findsPlace_checkSlot parent field child).bind fun _ => .ok _
  | .list ns => by
    rw [Slot.expand]
    exact (findsPlace_expandNodes bs ns).bind fun children =>
      (findsPlace_forM_checkSlot parent field children).bind fun _ => .ok _
  | .absent => by
    rw [Slot.expand]
    exact .ok _
  | .scalar value => by
    rw [Slot.expand]
    exact .ok _
termination_by structural slot => slot

theorem findsPlace_expandSlots (bs : Bindings) (parent : Node) :
    (slots : List (Field × Slot)) → FindsPlace (expandSlots bs parent slots)
  | [] => by
    rw [expandSlots]
    exact .ok _
  | (field, slot) :: rest => by
    rw [expandSlots]
    exact (slot.findsPlace_expand bs parent field).bind fun _ =>
      (findsPlace_expandSlots bs parent rest).bind fun _ => .ok _
termination_by structural slots => slots

theorem findsPlace_expandNodes (bs : Bindings) :
    (ns : List Node) → FindsPlace (expandNodes bs ns)
  | [] => by
    rw [expandNodes]
    exact .ok _
  | n :: rest => by
    rw [expandNodes]
    exact (n.findsPlace_expand bs).bind fun _ =>
      (findsPlace_expandNodes bs rest).bind fun _ => .ok _
termination_by structural ns => ns

end

theorem findsPlace_instantiate (template : Fragment) (bs : Bindings) :
    FindsPlace (template.instantiate bs) := by
  cases template with
  | expression root =>
      exact (root.findsPlace_expand bs).bind fun expansion =>
        (findsPlace_single expansion).bind fun _ => .ok _
  | statements body => exact (findsPlace_expandNodes bs body).bind fun _ => .ok _

theorem findsPlace_toNode (r : Replacement) (statementExpected : Bool) :
    FindsPlace (r.toNode statementExpected) := by
  unfold Replacement.toNode
  repeat' split
  all_goals exact fun h => nomatch h

theorem findsPlace_fitInto (root : Node) (region : Region) (r : Replacement) :
    FindsPlace (r.fitInto root region) := by
  unfold Replacement.fitInto
  split
  · split
    · exact (findsPlace_toNode r false).bind fun _ => .ok _
    · exact (findsPlace_toNode r _).bind fun child =>
        (findsPlace_checkSlot _ _ child).bind fun _ => .ok _
  · exact .ok _

theorem Rule.findsPlace_replacementFor (rule : Rule) (root : Node) (m : Match) :
    FindsPlace (rule.replacementFor root m) :=
  (findsPlace_instantiate rule.template m.bindings).bind fun r =>
    findsPlace_fitInto root m.region r

/-- Splicing from the last match to the first is a simultaneous replacement.  A rule never fails
for want of a place.  It succeeds exactly when every selected match has a replacement that fits
the place of the match in the given tree, and otherwise reports the error of the last selected
match without one.  The new tree is that of a single pass over the given tree that puts these
replacements in the place of the selected regions. -/
theorem Rule.transform_simultaneous
    (rule : Rule)
    {root : Node}
    (hroot : root.DistinctFields) :
    rule.transform root ≠ .error .noSuchPlace ∧
    ((∃ result, rule.transform root = .ok result) ↔
      ∀ m ∈ selectDisjoint (rule.pattern.findAll root),
        ∃ body, rule.replacementFor root m = .ok body) ∧
    (∀ error, rule.transform root = .error error ↔
      ∃ earlier m later,
        selectDisjoint (rule.pattern.findAll root) = earlier ++ m :: later ∧
        rule.replacementFor root m = .error error ∧
        ∀ m' ∈ later, ∃ body, rule.replacementFor root m' = .ok body) ∧
    (∀ result, rule.transform root = .ok result →
      ∃ edits : List Edit,
        List.Forall₂ (fun m e => e.region = m.region ∧ rule.replacementFor root m = .ok e.body)
          (selectDisjoint (rule.pattern.findAll root)) edits ∧
        result.tree = root.overwrite edits) := by
  have herror : ∀ error, rule.transform root = .error error ↔
      rule.editsFor root (selectDisjoint (rule.pattern.findAll root)) = .error error := by
    intro error
    rw [rule.transform_eq_overwrite hroot]
    cases rule.editsFor root (selectDisjoint (rule.pattern.findAll root)) <;> simp [Except.map]
  have hok : ∀ result, rule.transform root = .ok result →
      ∃ edits, rule.editsFor root (selectDisjoint (rule.pattern.findAll root)) = .ok edits ∧
        result.tree = root.overwrite edits := by
    intro result hresult
    rw [rule.transform_eq_overwrite hroot] at hresult
    cases hedits : rule.editsFor root (selectDisjoint (rule.pattern.findAll root)) with
    | error e =>
        rw [hedits] at hresult
        cases hresult
    | ok edits =>
        rw [hedits] at hresult
        cases hresult
        exact ⟨edits, rfl, rfl⟩
  refine ⟨?_, ?_, ?_, ?_⟩
  · rw [Ne, herror, Rule.editsFor_eq_error_iff]
    rintro ⟨-, m, -, -, hfails, -⟩
    exact rule.findsPlace_replacementFor root m hfails
  · rw [← Rule.exists_editsFor_iff]
    constructor
    · rintro ⟨result, hresult⟩
      obtain ⟨edits, hedits, -⟩ := hok result hresult
      exact ⟨edits, hedits⟩
    · rintro ⟨edits, hedits⟩
      rw [rule.transform_eq_overwrite hroot, hedits]
      exact ⟨_, rfl⟩
  · intro error
    rw [herror, Rule.editsFor_eq_error_iff]
  · intro result hresult
    obtain ⟨edits, hedits, htree⟩ := hok result hresult
    exact ⟨edits, Rule.forall₂_editsFor hedits, htree⟩

/-- A statement that consists of a name. -/
def nameStatement (name : String) : Node :=
  .mk .expressionStatement {} [(.expression, .node (.identifier name))]

def twoNames : Node := .mk .program {} [(.body, .list [nameStatement "x", nameStatement "y"])]

/-- The rule `a; -> a; a;`. -/
def doubling : Rule :=
  ⟨⟨.statements [nameStatement "a"], ⟨[("a", .value)]⟩⟩,
    .statements [nameStatement "a", nameStatement "a"]⟩

/-- Two runs of one list that both grow. -/
theorem Rule.transform_simultaneous_doubling :
    twoNames.DistinctFields ∧
      (selectDisjoint (doubling.pattern.findAll twoNames)).map Match.region =
        [.run [] .body 0 1, .run [] .body 1 1] ∧
      ∃ result, doubling.transform twoNames = .ok result ∧
        (result.tree.list .body).length = 4 ∧
        ∃ edits : List Edit,
          List.Forall₂
            (fun m e => e.region = m.region ∧ doubling.replacementFor twoNames m = .ok e.body)
            (selectDisjoint (doubling.pattern.findAll twoNames)) edits ∧
          result.tree = twoNames.overwrite edits := by
  have hdistinct : twoNames.DistinctFields := by
    unfold Node.DistinctFields
    decide
  refine ⟨hdistinct, by decide +kernel, _, rfl, by decide +kernel, ?_⟩
  exact (doubling.transform_simultaneous hdistinct).2.2.2 _ rfl

end Graft
