import Graft.Proofs.Simultaneous
import Mathlib.Data.List.Pairwise
import Mathlib.Data.List.Sort

/-!
# Which matches are selected

`selectDisjoint` walks over the matches and compares each with all that are kept so far.  Since the
matches stand in document order, the walk can be read off the tree: a node is kept when no kept
region lies above it, and the kept runs of a list are those of a scan that jumps past every run it
takes.

The order is used through `mem_selectDisjoint_iff` only, which says that a match is kept exactly
when no kept match that stands before it overlaps it.
-/

namespace Graft

/-! ## Regions that share a node -/

/-- The path leads to a node of the region or to a place below one. -/
def Region.Covers (region : Region) (path : Path) : Prop := ∃ top ∈ region.roots, top <+: path

instance (region : Region) (path : Path) : Decidable (region.Covers path) :=
  inferInstanceAs (Decidable (∃ top ∈ region.roots, top <+: path))

theorem Region.covers_node {top path : Path} : (Region.node top).Covers path ↔ top <+: path := by
  simp [Region.Covers, Region.roots]

theorem Region.covers_run {parent path : Path} {field : Field} {start length : Nat} :
    (Region.run parent field start length).Covers path ↔
      ∃ j, start ≤ j ∧ j < start + length ∧ parent ++ [⟨field, some j⟩] <+: path := by
  constructor
  · rintro ⟨top, htop, hbelow⟩
    obtain ⟨j, hfirst, hlast, rfl⟩ := Region.mem_roots_run.mp htop
    exact ⟨j, hfirst, hlast, hbelow⟩
  · rintro ⟨j, hfirst, hlast, hbelow⟩
    exact ⟨_, Region.mem_roots_run.mpr ⟨j, hfirst, hlast, rfl⟩, hbelow⟩

theorem Region.Covers.below
    {region : Region} {path lower : Path}
    (hcovers : region.Covers path) (hlower : path <+: lower) :
    region.Covers lower := by
  obtain ⟨top, htop, hpath⟩ := hcovers
  exact ⟨top, htop, hpath.trans hlower⟩

theorem Region.overlaps_iff {a b : Region} :
    a.overlaps b = true ↔ ∃ path, a.Covers path ∧ b.Covers path := by
  simp only [Region.overlaps, List.any_eq_true, Region.comparable, Bool.or_eq_true,
    List.isPrefixOf_iff_prefix]
  constructor
  · rintro ⟨p, hp, q, hq, hpre | hpre⟩
    · exact ⟨q, ⟨p, hp, hpre⟩, q, hq, List.prefix_rfl⟩
    · exact ⟨p, ⟨p, hp, List.prefix_rfl⟩, q, hq, hpre⟩
  · rintro ⟨path, ⟨p, hp, hpath⟩, q, hq, hpath'⟩
    exact ⟨p, hp, q, hq, List.prefix_or_prefix_of_prefix hpath hpath'⟩

theorem Region.overlaps_comm (a b : Region) : a.overlaps b = b.overlaps a := by
  rw [Bool.eq_iff_iff, Region.overlaps_iff, Region.overlaps_iff]
  exact exists_congr fun path => and_comm

theorem Node.Precedes.not_prefix {n : Node} {p q : Path} (hprecedes : n.Precedes p q) :
    ¬ q <+: p := by
  induction hprecedes with
  | above => simp
  | beside hstep =>
      intro hpre
      rw [List.cons_prefix_cons] at hpre
      exact absurd (hpre.1 ▸ hstep) Node.StepBefore.irrefl
  | inside _ _ ih =>
      intro hpre
      exact ih (List.cons_prefix_cons.mp hpre).2

/-! ## One walk over the matches -/

/-- The positions in a list of matches at which a selection keeps one: it keeps them in their
order, no two of them overlap, and whatever is dropped overlaps one that is kept earlier. -/
structure KeptAt (ms selected : List Match) (kept : List Nat) : Prop where
  increasing : kept.Pairwise (· < ·)
  taken : kept.map (ms[·]?) = selected.map some
  disjoint : selected.Pairwise fun a b => a.region.overlaps b.region = false
  dropped : ∀ i m, ms[i]? = some m → i ∉ kept →
    ∃ j k, j ∈ kept ∧ j < i ∧ ms[j]? = some k ∧ k.region.overlaps m.region = true

theorem KeptAt.mem_selected
    {ms selected : List Match} {kept : List Nat}
    (hkept : KeptAt ms selected kept)
    {i : Nat}
    (hi : i ∈ kept)
    {m : Match}
    (hm : ms[i]? = some m) :
    m ∈ selected := by
  have hmem : some m ∈ kept.map (ms[·]?) := List.mem_map.mpr ⟨i, hi, hm⟩
  rw [hkept.taken] at hmem
  simpa using hmem

theorem exists_positions_selectFrom (regions : List Region) (ms : List Match) :
    ∃ kept : List Nat, kept.Pairwise (· < ·) ∧
      kept.map (ms[·]?) = (selectFrom regions ms).map some ∧
      ∀ i m, ms[i]? = some m → i ∉ kept →
        (∃ region ∈ regions, region.overlaps m.region = true) ∨
        ∃ j k, j ∈ kept ∧ j < i ∧ ms[j]? = some k ∧ k.region.overlaps m.region = true := by
  induction ms generalizing regions with
  | nil => exact ⟨[], .nil, rfl, by simp⟩
  | cons first ms ih =>
      rw [selectFrom]
      split
      next hdrop =>
        obtain ⟨kept, hincreasing, htaken, hdropped⟩ := ih regions
        refine ⟨kept.map (· + 1), ?_, ?_, ?_⟩
        · exact List.pairwise_map.mpr (hincreasing.imp fun h => Nat.succ_lt_succ h)
        · rw [List.map_map, ← htaken]
          exact List.map_congr_left fun i _ => List.getElem?_cons_succ
        · intro i m hm hi
          cases i with
          | zero =>
              cases hm
              exact Or.inl (List.any_eq_true.mp hdrop)
          | succ i =>
              refine (hdropped i m hm (by simpa using hi)).imp_right ?_
              rintro ⟨j, k, hj, hlt, hk, hoverlap⟩
              exact ⟨j + 1, k, List.mem_map_of_mem hj, by omega, hk, hoverlap⟩
      next hkeep =>
        obtain ⟨kept, hincreasing, htaken, hdropped⟩ := ih (first.region :: regions)
        refine ⟨0 :: kept.map (· + 1), ?_, ?_, ?_⟩
        · refine .cons (by simp) ?_
          exact List.pairwise_map.mpr (hincreasing.imp fun h => Nat.succ_lt_succ h)
        · rw [List.map_cons, List.map_cons, List.map_map, ← htaken]
          exact congrArg _ (List.map_congr_left fun i _ => List.getElem?_cons_succ)
        · intro i m hm hi
          cases i with
          | zero => simp at hi
          | succ i =>
              rcases hdropped i m hm (by simpa using hi) with
                ⟨region, hregion, hoverlap⟩ | ⟨j, k, hj, hlt, hk, hoverlap⟩
              · rcases List.mem_cons.mp hregion with rfl | hregion
                · exact Or.inr ⟨0, first, by simp, by omega, rfl, hoverlap⟩
                · exact Or.inl ⟨region, hregion, hoverlap⟩
              · exact Or.inr ⟨j + 1, k, by simpa using hj, by omega, hk, hoverlap⟩

theorem exists_keptAt_selectDisjoint (ms : List Match) :
    ∃ kept, KeptAt ms (selectDisjoint ms) kept := by
  obtain ⟨kept, hincreasing, htaken, hdropped⟩ := exists_positions_selectFrom [] ms
  refine ⟨kept, hincreasing, htaken, pairwise_selectFrom [] ms, ?_⟩
  intro i m hm hi
  simpa using hdropped i m hm hi

theorem mem_of_mem_selectDisjoint
    {ms : List Match} {m : Match}
    (hm : m ∈ selectDisjoint ms) :
    m ∈ ms :=
  (selectFrom_sublist [] ms).subset hm

theorem overlaps_eq_false_of_mem_selectDisjoint
    {ms : List Match} {a b : Match}
    (ha : a ∈ selectDisjoint ms) (hb : b ∈ selectDisjoint ms) (hne : a ≠ b) :
    a.region.overlaps b.region = false := by
  have : Std.Symm fun a b : Match => a.region.overlaps b.region = false :=
    ⟨fun a b h => by rw [Region.overlaps_comm, h]⟩
  exact (pairwise_selectFrom [] ms).forall ha hb hne

/-- No two kept regions cover one path. -/
theorem eq_of_covers_of_mem_selectDisjoint
    {ms : List Match} {a b : Match}
    (ha : a ∈ selectDisjoint ms) (hb : b ∈ selectDisjoint ms)
    (path : Path)
    (hapath : a.region.Covers path) (hbpath : b.region.Covers path) :
    a = b := by
  by_contra hne
  have hdisjoint := overlaps_eq_false_of_mem_selectDisjoint ha hb hne
  rw [Region.overlaps_iff.mpr ⟨path, hapath, hbpath⟩] at hdisjoint
  contradiction

/-! ## Matches in document order -/

section DocumentOrder

variable {root : Node} {ms : List Match}
  (hordered : ms.Pairwise fun a b => Region.Before root a.region b.region)

include hordered

theorem eq_of_region_eq
    {a b : Match}
    (ha : a ∈ ms) (hb : b ∈ ms) (hregion : a.region = b.region) :
    a = b := by
  by_contra hne
  have : Std.Symm fun a b : Match => a.region ≠ b.region := ⟨fun _ _ h => h.symm⟩
  have hregions : ms.Pairwise fun a b => a.region ≠ b.region :=
    hordered.imp fun {a b} hbefore heq => by
      rw [heq] at hbefore
      exact hbefore.irrefl
  exact hregions.forall ha hb hne hregion

/-- A match is kept exactly when no kept match before it overlaps it. -/
theorem mem_selectDisjoint_iff {m : Match} (hm : m ∈ ms) :
    m ∈ selectDisjoint ms ↔
      ∀ k ∈ selectDisjoint ms, Region.Before root k.region m.region →
        k.region.overlaps m.region = false := by
  constructor
  · intro hkept k hk hbefore
    refine overlaps_eq_false_of_mem_selectDisjoint hk hkept ?_
    rintro rfl
    exact hbefore.irrefl
  · intro hclear
    obtain ⟨kept, hkept⟩ := exists_keptAt_selectDisjoint ms
    obtain ⟨i, hi⟩ := List.getElem?_of_mem hm
    by_contra hdropped
    obtain ⟨j, k, hj, hlt, hk, hoverlap⟩ :=
      hkept.dropped i m hi fun hmem => hdropped (hkept.mem_selected hmem hi)
    have hbefore : Region.Before root k.region m.region := by
      obtain ⟨hjlt, rfl⟩ := List.getElem?_eq_some_iff.mp hk
      obtain ⟨hilt, rfl⟩ := List.getElem?_eq_some_iff.mp hi
      exact List.pairwise_iff_getElem.mp hordered j i hjlt hilt hlt
    rw [hclear k (hkept.mem_selected hj hk) hbefore] at hoverlap
    contradiction

/-- A node is kept exactly when no other kept region lies above it. -/
theorem node_mem_selectDisjoint_iff
    (hwithin : ∀ m ∈ ms, m.region.Within root)
    {m : Match}
    (hm : m ∈ ms)
    {path : Path}
    (hregion : m.region = .node path) :
    m ∈ selectDisjoint ms ↔ ∀ k ∈ selectDisjoint ms, k.region.Covers path → k = m := by
  constructor
  · intro hkept k hk hcovers
    refine eq_of_covers_of_mem_selectDisjoint hk hkept path hcovers ?_
    rw [hregion]
    exact Region.covers_node.mpr List.prefix_rfl
  · intro honly
    refine (mem_selectDisjoint_iff hordered hm).mpr fun k hk hbefore => ?_
    have huncovered : ¬ k.region.Covers path := by
      intro hcovers
      rw [honly k hk hcovers] at hbefore
      exact hbefore.irrefl
    -- what is met first cannot lie strictly below what is met later
    have hanchor : ¬ path <+: k.region.anchor := by
      intro hpre
      rcases hbefore with hprecedes | ⟨-, -, heq⟩
      · rw [hregion, Region.anchor_node] at hprecedes
        exact hprecedes.not_prefix hpre
      · refine huncovered ?_
        rw [hregion, Region.anchor_node] at heq
        rw [← heq]
        have hk := hwithin k (mem_of_mem_selectDisjoint hk)
        cases hkregion : k.region with
        | node top => exact Region.covers_node.mpr List.prefix_rfl
        | run parent field start length =>
            rw [hkregion] at hk
            exact Region.covers_run.mpr ⟨start, le_rfl, by have := hk.1; omega, List.prefix_rfl⟩
    by_contra hoverlap
    rw [Bool.not_eq_false, Region.overlaps_iff, hregion] at hoverlap
    obtain ⟨lower, ⟨top, htop, hbelow⟩, hlower⟩ := hoverlap
    rw [Region.covers_node] at hlower
    rcases List.prefix_or_prefix_of_prefix hbelow hlower with hpre | hpre
    · exact huncovered ⟨top, htop, hpre⟩
    · cases hkregion : k.region with
      | node place =>
          rw [hkregion] at htop hanchor
          simp only [Region.roots, List.mem_singleton] at htop
          exact hanchor (htop ▸ hpre)
      | run parent field start length =>
          rw [hkregion] at htop hanchor huncovered
          obtain ⟨j, hfirst, hlast, rfl⟩ := Region.mem_roots_run.mp htop
          rcases List.prefix_concat_iff.mp hpre with rfl | hparent
          · exact huncovered ⟨_, htop, List.prefix_rfl⟩
          · exact hanchor (hparent.trans (List.prefix_append _ _))

/-- A run of a list that no kept region covers is kept exactly when no kept run of the list reaches
into it from the front. -/
theorem run_mem_selectDisjoint_iff
    {m : Match}
    (hm : m ∈ ms)
    {parent : Path} {field : Field} {start length : Nat}
    (hregion : m.region = .run parent field start length)
    (houtside : ∀ k ∈ selectDisjoint ms, ¬ k.region.Covers parent)
    (hitems : ∀ k ∈ ms, ∀ i, k.region ≠ .node (parent ++ [⟨field, some i⟩]))
    (hlengths : ∀ k ∈ ms, ∀ i length', k.region = .run parent field i length' → length' = length) :
    m ∈ selectDisjoint ms ↔
      ∀ k ∈ selectDisjoint ms, ∀ i, k.region = .run parent field i length → i < start →
        i + length ≤ start := by
  constructor
  · intro hkept k hk i hkregion hlt
    by_contra hreach
    have heq : k = m := by
      refine eq_of_covers_of_mem_selectDisjoint hk hkept (parent ++ [⟨field, some start⟩]) ?_ ?_
      · rw [hkregion]
        exact Region.covers_run.mpr ⟨start, by omega, by omega, List.prefix_rfl⟩
      · rw [hregion]
        exact Region.covers_run.mpr ⟨start, by omega, by omega, List.prefix_rfl⟩
    rw [heq, hregion] at hkregion
    have := (Region.run.inj hkregion).2.2.1
    omega
  · intro hclear
    refine (mem_selectDisjoint_iff hordered hm).mpr fun k hk hbefore => ?_
    have hprecedes : root.Precedes k.region.anchor (parent ++ [⟨field, some start⟩]) := by
      rw [hregion] at hbefore
      rcases hbefore with hprecedes | ⟨-, hnode, -⟩
      · exact hprecedes
      · simp at hnode
    -- a kept match inside an item of the run would be met after the run
    have hinside : ∀ j, start ≤ j → ¬ parent ++ [⟨field, some j⟩] <+: k.region.anchor := by
      rintro j hj ⟨rest, hrest⟩
      rw [← hrest, List.append_assoc, List.singleton_append] at hprecedes
      have := hprecedes.index_lt
      omega
    by_contra hoverlap
    rw [Bool.not_eq_false, Region.overlaps_iff, hregion] at hoverlap
    obtain ⟨lower, ⟨top, htop, hbelow⟩, hlower⟩ := hoverlap
    obtain ⟨j, hfirst, hlast, hitem⟩ := Region.covers_run.mp hlower
    have habove : ¬ top <+: parent := fun hpre => houtside k hk ⟨top, htop, hpre⟩
    cases hkregion : k.region with
    | node place =>
        rw [hkregion] at htop hinside
        simp only [Region.roots, List.mem_singleton] at htop
        subst htop
        rcases List.prefix_or_prefix_of_prefix hbelow hitem with hpre | hpre
        · rcases List.prefix_concat_iff.mp hpre with rfl | hparent
          · exact hitems k (mem_of_mem_selectDisjoint hk) j hkregion
          · exact habove hparent
        · exact hinside j hfirst hpre
    | run parent' field' i length' =>
        rw [hkregion] at htop hinside hprecedes
        obtain ⟨j', hfirst', hlast', rfl⟩ := Region.mem_roots_run.mp htop
        have heq : parent' ++ [⟨field', some j'⟩] = parent ++ [⟨field, some j⟩] := by
          rcases List.prefix_or_prefix_of_prefix hbelow hitem with hpre | hpre
          · exact (List.prefix_concat_iff.mp hpre).resolve_right habove
          · refine ((List.prefix_concat_iff.mp hpre).resolve_right fun hparent => ?_).symm
            exact hinside j hfirst (hparent.trans (List.prefix_append _ _))
        obtain ⟨rfl, hstep⟩ := List.append_inj' heq rfl
        simp only [List.cons.injEq, Step.mk.injEq, Option.some.injEq, and_true] at hstep
        obtain ⟨rfl, rfl⟩ := hstep
        obtain rfl := hlengths k (mem_of_mem_selectDisjoint hk) i length' hkregion
        have := hclear k hk i hkregion hprecedes.index_lt
        omega

end DocumentOrder

/-! ## A scan of one list -/

/-- The positions at which a scan takes a run: it goes from left to right, and behind a run that it
takes it goes on after the last item of the run. -/
def scanRuns (fits : List Node → Bool) (length : Nat) : Nat → Nat → List Node → List Nat
  | _, _, [] => []
  | skip + 1, i, _ :: rest => scanRuns fits length skip (i + 1) rest
  | 0, i, n :: rest =>
    if fits (n :: rest) then i :: scanRuns fits length (length - 1) (i + 1) rest
    else scanRuns fits length 0 (i + 1) rest

theorem le_of_mem_scanRuns
    {fits : List Node → Bool} {length skip i j : Nat} {items : List Node}
    (hj : j ∈ scanRuns fits length skip i items) :
    i + skip ≤ j := by
  fun_induction scanRuns fits length skip i items with
  | case1 => simp at hj
  | case2 skip i _ rest ih =>
      have := ih hj
      omega
  | case3 i n rest hfits ih =>
      rcases List.mem_cons.mp hj with rfl | hj
      · omega
      · have := ih hj
        omega
  | case4 i n rest hfits ih =>
      have := ih hj
      omega

theorem pairwise_scanRuns
    (fits : List Node → Bool) (length skip i : Nat) (items : List Node) :
    (scanRuns fits length skip i items).Pairwise (· < ·) := by
  fun_induction scanRuns fits length skip i items with
  | case1 => exact .nil
  | case2 skip i _ rest ih => exact ih
  | case3 i n rest hfits ih =>
      refine .cons (fun j hj => ?_) ih
      have := le_of_mem_scanRuns hj
      omega
  | case4 i n rest hfits ih => exact ih

/-- A scan takes a run exactly when it fits and no run taken before reaches into it. -/
theorem mem_scanRuns_iff
    {fits : List Node → Bool} {length : Nat}
    (hlength : 0 < length)
    {skip i j : Nat} {items : List Node} :
    j ∈ scanRuns fits length skip i items ↔
      (i + skip ≤ j ∧ j < i + items.length ∧ fits (items.drop (j - i)) = true) ∧
      ∀ k ∈ scanRuns fits length skip i items, k < j → k + length ≤ j := by
  have hbehind : ∀ {i n} {rest : List Node}, i < j →
      (n :: rest).drop (j - i) = rest.drop (j - (i + 1)) := by
    intro i n rest hlt
    rw [show j - i = j - (i + 1) + 1 by omega, List.drop_succ_cons]
  fun_induction scanRuns fits length skip i items with
  | case1 =>
      simp only [List.not_mem_nil, List.length_nil, false_iff]
      omega
  | case2 skip i n rest ih =>
      rw [List.length_cons]
      refine ih.trans (and_congr_left fun _ => ?_)
      constructor
      · rintro ⟨hfirst, hlast, hfits⟩
        exact ⟨by omega, by omega, by rwa [hbehind (by omega)]⟩
      · rintro ⟨hfirst, hlast, hfits⟩
        exact ⟨by omega, by omega, by rwa [hbehind (by omega)] at hfits⟩
  | case3 i n rest hfits ih =>
      simp only [List.mem_cons, forall_eq_or_imp, List.length_cons]
      refine (or_congr_right ih).trans ?_
      constructor
      · rintro (rfl | ⟨⟨hfirst, hlast, hrun⟩, hclear⟩)
        · refine ⟨⟨by omega, by omega, by simpa using hfits⟩, by omega, fun k hk hlt => ?_⟩
          have := le_of_mem_scanRuns hk
          omega
        · exact ⟨⟨by omega, by omega, by rwa [hbehind (by omega)]⟩, by omega, hclear⟩
      · rintro ⟨⟨hfirst, hlast, hrun⟩, hjump, hclear⟩
        rcases Nat.eq_or_lt_of_le hfirst with heq | hlt
        · exact Or.inl (by omega)
        · exact Or.inr ⟨⟨by omega, by omega, by rwa [hbehind (by omega)] at hrun⟩, hclear⟩
  | case4 i n rest hfits ih =>
      rw [List.length_cons]
      refine ih.trans (and_congr_left fun _ => ?_)
      constructor
      · rintro ⟨hfirst, hlast, hrun⟩
        exact ⟨by omega, by omega, by rwa [hbehind (by omega)]⟩
      · rintro ⟨hfirst, hlast, hrun⟩
        rcases Nat.eq_or_lt_of_le hfirst with heq | hlt
        · obtain rfl : i = j := by omega
          simp [hfits] at hrun
        · exact ⟨by omega, by omega, by rwa [hbehind (by omega)] at hrun⟩

/-- Two increasing lists are the same if each holds a position exactly when the position is allowed
and no earlier position of the list reaches it. -/
theorem eq_of_greedy
    (allowed : Nat → Prop) (length : Nat)
    {xs ys : List Nat}
    (hxs : xs.Pairwise (· < ·))
    (hys : ys.Pairwise (· < ·))
    (hx : ∀ i, i ∈ xs ↔ allowed i ∧ ∀ k ∈ xs, k < i → k + length ≤ i)
    (hy : ∀ i, i ∈ ys ↔ allowed i ∧ ∀ k ∈ ys, k < i → k + length ≤ i) :
    xs = ys := by
  have hsame : ∀ i, i ∈ xs ↔ i ∈ ys := by
    intro i
    induction i using Nat.strong_induction_on with
    | h i ih =>
        rw [hx, hy]
        refine and_congr_right fun _ => ?_
        constructor
        · intro hclear k hk hlt
          exact hclear k ((ih k hlt).mpr hk) hlt
        · intro hclear k hk hlt
          exact hclear k ((ih k hlt).mp hk) hlt
  exact hxs.eq_of_mem_iff hys hsame

/-! ## The matches of a pattern in a tree -/

/-- Where the region of a match starts, if it is a run of the given list. -/
def Match.startIn? (parent : Path) (field : Field) (m : Match) : Option Nat :=
  match m.region with
  | .node _ => none
  | .run place field' start _ => if place = parent ∧ field' = field then some start else none

theorem Match.startIn?_eq_some_iff
    {parent : Path} {field : Field} {m : Match} {start : Nat} :
    m.startIn? parent field = some start ↔ ∃ length, m.region = .run parent field start length := by
  unfold Match.startIn?
  cases m.region <;> simp [and_assoc]

section Found

variable {p : Pattern} {root : Node} (hroot : root.DistinctFields)

include hroot

theorem Pattern.pairwise_findAll :
    (p.findAll root).Pairwise fun a b => Region.Before root a.region b.region :=
  Node.pairwise_findMatches hroot none

theorem Pattern.exists_node_of_expression
    {top : Node}
    (hfragment : p.fragment = .expression top)
    {m : Match}
    (hm : m ∈ p.findAll root) :
    ∃ path, m.region = .node path := by
  cases hregion : m.region with
  | node path => exact ⟨path, rfl⟩
  | run parent field start length =>
      have hnodes : p.fragment.nodes ≠ [] := by simp [hfragment, Fragment.nodes]
      obtain ⟨n, items, body, -, -, -, hbody, -⟩ :=
        (Node.exists_run_match_iff hnodes hroot).mp ⟨m, hm, hregion, rfl⟩
      rw [hfragment] at hbody
      contradiction

/-- A match of an expression is kept exactly when no match lies strictly above it. -/
theorem Pattern.outermost_iff
    {top : Node}
    (hfragment : p.fragment = .expression top)
    {m : Match}
    (hm : m ∈ p.findAll root)
    {path : Path}
    (hregion : m.region = .node path) :
    m ∈ selectDisjoint (p.findAll root) ↔
      ¬ ∃ k ∈ p.findAll root, ∃ above, k.region = .node above ∧ above <+: path ∧ above ≠ path := by
  have hordered := Pattern.pairwise_findAll (p := p) hroot
  have hkept := fun {m} hm {path} => @node_mem_selectDisjoint_iff root (p.findAll root) hordered
    (fun m hm => Node.within_of_mem_findMatches hroot hm) m hm path
  constructor
  · rintro hselected ⟨k, hk, above, hkregion, hpre, hne⟩
    have honly := (hkept hm hregion).mp hselected
    have hmk : m ≠ k := by
      rintro rfl
      exact hne (Region.node.inj (hkregion.symm.trans hregion))
    -- the match above is kept itself, or lies below a kept match that then covers both
    by_cases hkselected : k ∈ selectDisjoint (p.findAll root)
    · refine hmk (honly k hkselected ?_).symm
      rw [hkregion]
      exact Region.covers_node.mpr hpre
    · rw [hkept hk hkregion] at hkselected
      push Not at hkselected
      obtain ⟨outer, houter, hcovers, -⟩ := hkselected
      obtain rfl := honly outer houter (hcovers.below hpre)
      rw [hregion, Region.covers_node] at hcovers
      exact hne (hpre.eq_of_length_le hcovers.length_le)
  · intro houtermost
    refine (hkept hm hregion).mpr fun k hk hcovers => ?_
    obtain ⟨above, hkregion⟩ :=
      Pattern.exists_node_of_expression hroot hfragment (mem_of_mem_selectDisjoint hk)
    rw [hkregion, Region.covers_node] at hcovers
    refine eq_of_region_eq hordered (mem_of_mem_selectDisjoint hk) hm ?_
    by_contra hne
    refine houtermost ⟨k, mem_of_mem_selectDisjoint hk, above, hkregion, hcovers, ?_⟩
    rintro rfl
    exact hne (hkregion.trans hregion.symm)

section Statements

variable {body : List Node} (hfragment : p.fragment = .statements body) (hbody : body ≠ [])
  {parent : Path} {n : Node} {field : Field} {items : List Node}
  (hparent : Path.resolve? parent root = some n)
  (hlist : n.kind.hasStatementList field = true) (hslot : n.slot? field = some (.list items))

include hfragment

include hbody in
theorem Pattern.length_of_run_match
    {m : Match}
    (hm : m ∈ p.findAll root)
    {start length : Nat}
    (hregion : m.region = .run parent field start length) :
    length = body.length := by
  obtain ⟨_, _, body', -, -, -, hbody', hlength, -⟩ :=
    (Node.exists_run_match_iff (by rwa [hfragment]) hroot).mp ⟨m, hm, hregion, rfl⟩
  rw [hfragment] at hbody'
  rw [hlength, (Fragment.statements.inj hbody').symm]

include hbody hparent hlist hslot in
theorem Pattern.exists_run_at_iff {start : Nat} :
    (∃ m ∈ p.findAll root, m.region = .run parent field start body.length) ↔
      start < items.length ∧
        (unifySequence p.wildcards body ((items.drop start).take body.length)).1 = true := by
  have hnodes : p.fragment.nodes ≠ [] := by rwa [hfragment]
  have hpositive := List.length_pos_of_ne_nil hbody
  constructor
  · rintro ⟨m, hm, hregion⟩
    obtain ⟨n', items', body', hn', -, hitems', hbody', -, hbound, hfits⟩ :=
      (Node.exists_run_match_iff hnodes hroot).mp ⟨m, hm, hregion, rfl⟩
    obtain rfl := Option.some.inj (hn'.symm.trans hparent)
    obtain rfl := Slot.list.inj (Option.some.inj (hitems'.symm.trans hslot))
    obtain rfl := Fragment.statements.inj (hbody'.symm.trans hfragment)
    exact ⟨by omega, by rw [hfits]⟩
  · rintro ⟨hstart, hfits⟩
    cases hunify : unifySequence p.wildcards body ((items.drop start).take body.length) with
    | mk fits bs =>
        rw [hunify] at hfits
        obtain rfl : fits = true := hfits
        have hlength := length_eq_of_unifySequence hunify
        rw [List.length_take, List.length_drop] at hlength
        obtain ⟨m, hm, hregion, -⟩ := (Node.exists_run_match_iff hnodes hroot).mpr
          ⟨n, items, body, hparent, hlist, hslot, hfragment, rfl, by omega, hunify⟩
        exact ⟨m, hm, hregion⟩

include hparent hlist in
/-- The items of a statement list are matched in runs only. -/
theorem Pattern.region_ne_item {m : Match} (hm : m ∈ p.findAll root) (i : Nat) :
    m.region ≠ .node (parent ++ [⟨field, some i⟩]) := by
  intro hregion
  obtain ⟨_, -, heligible, -⟩ := (Node.exists_node_match_iff hroot).mp ⟨m, hm, hregion, rfl⟩
  rw [Option.or_none, Path.site?_append_singleton, hparent, Option.map_some] at heligible
  simp [Pattern.isEligible, hfragment, Site.holdsOneStatement, hlist] at heligible

include hbody hparent hlist hslot in
/-- The kept runs of a list that no kept region covers are those that a scan takes. -/
theorem Pattern.starts_eq_scanRuns
    (houtside : ∀ k ∈ selectDisjoint (p.findAll root), ¬ k.region.Covers parent) :
    (selectDisjoint (p.findAll root)).filterMap (Match.startIn? parent field) =
      scanRuns (fun rest => (unifySequence p.wildcards body (rest.take body.length)).1)
        body.length 0 0 items := by
  have hordered := Pattern.pairwise_findAll (p := p) hroot
  have hstart : ∀ {i}, i ∈ (selectDisjoint (p.findAll root)).filterMap
      (Match.startIn? parent field) ↔
        ∃ m ∈ selectDisjoint (p.findAll root), m.region = .run parent field i body.length := by
    intro i
    simp only [List.mem_filterMap, Match.startIn?_eq_some_iff]
    constructor
    · rintro ⟨m, hm, length, hregion⟩
      obtain rfl := Pattern.length_of_run_match hroot hfragment hbody
        (mem_of_mem_selectDisjoint hm) hregion
      exact ⟨m, hm, hregion⟩
    · rintro ⟨m, hm, hregion⟩
      exact ⟨m, hm, _, hregion⟩
  refine eq_of_greedy
    (fun i => ∃ m ∈ p.findAll root, m.region = .run parent field i body.length)
    body.length ?_ (pairwise_scanRuns _ _ _ _ _) ?_ ?_
  · refine List.Pairwise.filterMap _ ?_ (hordered.sublist (selectFrom_sublist [] _))
    intro a b hbefore i hi j hj
    obtain ⟨_, ha⟩ := Match.startIn?_eq_some_iff.mp hi
    obtain ⟨_, hb⟩ := Match.startIn?_eq_some_iff.mp hj
    rw [ha, hb] at hbefore
    rcases hbefore with hprecedes | ⟨-, hnode, -⟩
    · exact hprecedes.index_lt
    · simp at hnode
  · intro i
    have hreach : ∀ {m}, m ∈ p.findAll root → m.region = .run parent field i body.length →
        (m ∈ selectDisjoint (p.findAll root) ↔
          ∀ j ∈ (selectDisjoint (p.findAll root)).filterMap (Match.startIn? parent field),
            j < i → j + body.length ≤ i) := by
      intro m hm hregion
      rw [run_mem_selectDisjoint_iff hordered hm hregion houtside
        (fun k hk => Pattern.region_ne_item hroot hfragment hparent hlist hk)
        (fun k hk _ _ => Pattern.length_of_run_match hroot hfragment hbody hk)]
      simp only [hstart]
      constructor
      · rintro hclear j ⟨k, hk, hkregion⟩
        exact hclear k hk j hkregion
      · intro hclear k hk j hkregion
        exact hclear j ⟨k, hk, hkregion⟩
    rw [hstart]
    constructor
    · rintro ⟨m, hm, hregion⟩
      have hfound := mem_of_mem_selectDisjoint hm
      exact ⟨⟨m, hfound, hregion⟩, (hreach hfound hregion).mp hm⟩
    · rintro ⟨⟨m, hm, hregion⟩, hclear⟩
      exact ⟨m, (hreach hm hregion).mpr hclear, hregion⟩
  · intro i
    rw [mem_scanRuns_iff (List.length_pos_of_ne_nil hbody),
      Pattern.exists_run_at_iff hroot hfragment hbody hparent hlist hslot]
    simp

omit hfragment in
/-- No run of a list that a kept region covers is kept. -/
theorem Pattern.starts_eq_nil
    (hinside : ∃ k ∈ selectDisjoint (p.findAll root), k.region.Covers parent) :
    (selectDisjoint (p.findAll root)).filterMap (Match.startIn? parent field) = [] := by
  obtain ⟨k, hk, hcovers⟩ := hinside
  rw [List.filterMap_eq_nil_iff]
  intro m hm
  by_contra hstart
  obtain ⟨start, hstart⟩ := Option.ne_none_iff_exists'.mp hstart
  obtain ⟨length, hregion⟩ := Match.startIn?_eq_some_iff.mp hstart
  have hwithin := Node.within_of_mem_findMatches hroot (mem_of_mem_selectDisjoint hm)
  rw [hregion] at hwithin
  have hbelow : parent <+: parent ++ [⟨field, some start⟩] := List.prefix_append _ _
  have heq : k = m := by
    refine eq_of_covers_of_mem_selectDisjoint hk hm _ (hcovers.below hbelow) ?_
    rw [hregion]
    exact Region.covers_run.mpr ⟨start, le_rfl, by have := hwithin.1; omega, List.prefix_rfl⟩
  rw [heq, hregion] at hcovers
  obtain ⟨j, -, -, hpre⟩ := Region.covers_run.mp hcovers
  have hlength := hpre.length_le
  rw [List.length_append, List.length_singleton] at hlength
  omega

end Statements

end Found

/-- The selection of disjoint matches.  Regions overlap exactly when they cover a common path.  The
selection of any list of matches keeps its order and is disjoint, and what it drops overlaps a
match that is kept earlier.  Of the matches of an expression it keeps those below no other match.
Of the matches of statements it keeps, in every statement list that no kept region covers, the runs
that a scan from the left takes which jumps past each of them; in a list that one covers it keeps
none; and a statement that stands alone is kept when no other kept region covers it. -/
theorem Pattern.selectDisjoint_outermost_leftmost
    {text : String} {p : Pattern}
    (hcompile : Pattern.compile text = .ok p)
    {root : Node}
    (hroot : root.DistinctFields) :
    (∀ a b : Region, a.overlaps b = true ↔ ∃ path, a.Covers path ∧ b.Covers path) ∧
    (∀ ms : List Match, ∃ kept, KeptAt ms (selectDisjoint ms) kept) ∧
    (∀ top, p.fragment = .expression top → ∀ m ∈ p.findAll root,
      ∃ path, m.region = .node path ∧
        (m ∈ selectDisjoint (p.findAll root) ↔
          ¬ ∃ k ∈ p.findAll root, ∃ above,
            k.region = .node above ∧ above <+: path ∧ above ≠ path)) ∧
    (∀ body, p.fragment = .statements body →
      (∀ parent n field items, Path.resolve? parent root = some n →
        n.kind.hasStatementList field = true → n.slot? field = some (.list items) →
        ((∀ k ∈ selectDisjoint (p.findAll root), ¬ k.region.Covers parent) →
          (selectDisjoint (p.findAll root)).filterMap (Match.startIn? parent field) =
            scanRuns (fun rest => (unifySequence p.wildcards body (rest.take body.length)).1)
              body.length 0 0 items) ∧
        ((∃ k ∈ selectDisjoint (p.findAll root), k.region.Covers parent) →
          (selectDisjoint (p.findAll root)).filterMap (Match.startIn? parent field) = [])) ∧
      ∀ m ∈ p.findAll root, ∀ path, m.region = .node path →
        (m ∈ selectDisjoint (p.findAll root) ↔
          ∀ k ∈ selectDisjoint (p.findAll root), k.region.Covers path → k = m)) := by
  refine ⟨fun a b => Region.overlaps_iff, exists_keptAt_selectDisjoint, ?_, ?_⟩
  · intro top hfragment m hm
    obtain ⟨path, hregion⟩ := Pattern.exists_node_of_expression hroot hfragment hm
    exact ⟨path, hregion, Pattern.outermost_iff hroot hfragment hm hregion⟩
  · intro body hfragment
    have hbody : body ≠ [] := by
      have hnodes := Pattern.nodes_ne_nil_of_compile hcompile
      rwa [hfragment] at hnodes
    refine ⟨fun parent n field items hparent hlist hslot => ⟨?_, ?_⟩, ?_⟩
    · exact Pattern.starts_eq_scanRuns hroot hfragment hbody hparent hlist hslot
    · exact Pattern.starts_eq_nil hroot
    · intro m hm path hregion
      exact node_mem_selectDisjoint_iff (Pattern.pairwise_findAll hroot)
        (fun m hm => Node.within_of_mem_findMatches hroot hm) hm hregion

/-- Two names in a row, in a program of three with a block of three: the two runs of each list
overlap, and the first is kept. -/
theorem Pattern.selectDisjoint_outermost_leftmost_nested :
    ∃ p root body n items, Pattern.compile "a;b;" = .ok p ∧
      parse "u;v;w;\x7by;y;y\x7d" = .ok root ∧ root.DistinctFields ∧
      p.fragment = .statements body ∧
      Path.resolve? [⟨.body, some 3⟩] root = some n ∧ n.kind.hasStatementList .body = true ∧
      n.slot? .body = some (.list items) ∧
      (∀ k ∈ selectDisjoint (p.findAll root), ¬ k.region.Covers [⟨.body, some 3⟩]) ∧
      (selectDisjoint (p.findAll root)).map Match.region =
        [.run [] .body 0 2, .run [⟨.body, some 3⟩] .body 0 2] ∧
      (selectDisjoint (p.findAll root)).filterMap (Match.startIn? [⟨.body, some 3⟩] .body) =
        scanRuns (fun rest => (unifySequence p.wildcards body (rest.take body.length)).1)
          body.length 0 0 items := by
  have hrun : ((Pattern.compile "a;b;").toOption.any fun p : Pattern =>
      (parse "u;v;w;\x7by;y;y\x7d").toOption.any fun root : Node =>
        (Path.resolve? [⟨.body, some 3⟩] root).any fun n : Node =>
          p.fragment.nodes.length == 2 && decide (root.All fun n => n.fields.Nodup) &&
            n.kind.hasStatementList .body && (n.list .body).length == 3 &&
            decide (∀ k ∈ selectDisjoint (p.findAll root),
              ¬ k.region.Covers [⟨.body, some 3⟩]) &&
            (selectDisjoint (p.findAll root)).map Match.region ==
              [.run [] .body 0 2, .run [⟨.body, some 3⟩] .body 0 2]) = true := by
    decide +kernel
  obtain ⟨p, hp, hrun⟩ := exists_ok_of_any hrun
  obtain ⟨root, hroot, hrun⟩ := exists_ok_of_any hrun
  obtain ⟨n, hn, hrun⟩ := (Option.any_eq_true _ _).mp hrun
  simp only [Bool.and_eq_true, decide_eq_true_iff, beq_iff_eq] at hrun
  obtain ⟨⟨⟨⟨⟨hnodes, hdistinct⟩, hlist⟩, hlength⟩, houtside⟩, hregions⟩ := hrun
  obtain ⟨first, hfirst⟩ : ∃ first, first ∈ n.list .body :=
    List.exists_mem_of_length_pos (by omega)
  obtain ⟨items, hitems, -⟩ := Node.mem_list hfirst
  cases hfragment : p.fragment with
  | expression root => simp [hfragment, Fragment.nodes] at hnodes
  | statements body =>
      exact ⟨p, root, body, n, items, hp, hroot, hdistinct, hfragment, hn, hlist, hitems,
        houtside, hregions, (((Pattern.selectDisjoint_outermost_leftmost hp hdistinct).2.2.2
          body hfragment).1 _ n _ items hn hlist hitems).1 houtside⟩

end Graft
