import Graft.Rule.Basic
import Mathlib.Data.List.Forall2

/-!
# Compiling patterns and rules

What the parts of a compiled pattern are.  A compiled pattern has at least one node.  The lemmas on
computations that may fail are those that all proofs about compiling and running share.
-/

namespace Graft

/-! ## Computations that may fail -/

/-- A computation that may fail succeeds when its two parts do. -/
theorem bind_eq_ok_iff
    {ε α β : Type} {x : Except ε α} {f : α → Except ε β} {b : β} :
    x >>= f = .ok b ↔ ∃ a, x = .ok a ∧ f a = .ok b := by
  constructor
  · intro h
    cases x with
    | error e => cases h
    | ok a => exact ⟨a, rfl, h⟩
  · rintro ⟨a, rfl, h⟩
    exact h

theorem toOption_eq_some_iff {ε α : Type} {result : Except ε α} {a : α} :
    result.toOption = some a ↔ result = .ok a := by
  cases result <;> simp [Except.toOption]

theorem exists_ok_of_any
    {ε α : Type} {result : Except ε α} {test : α → Bool}
    (hany : result.toOption.any test = true) :
    ∃ a, result = .ok a ∧ test a = true := by
  cases result with
  | error => cases hany
  | ok a => exact ⟨a, rfl, hany⟩

theorem mapM_eq_ok_iff
    {ε α β : Type} {f : α → Except ε β} {xs : List α} {ys : List β} :
    xs.mapM f = .ok ys ↔ List.Forall₂ (fun x y => f x = .ok y) xs ys := by
  induction xs generalizing ys with
  | nil =>
      rw [List.forall₂_nil_left_iff]
      exact ⟨fun h => by cases h; rfl, fun h => by cases h; rfl⟩
  | cons x xs ih =>
      rw [List.mapM_cons, bind_eq_ok_iff, List.forall₂_cons_left_iff]
      constructor
      · rintro ⟨y, hy, hrest⟩
        obtain ⟨ys', hys', hpure⟩ := bind_eq_ok_iff.mp hrest
        cases hpure
        exact ⟨y, ys', hy, ih.mp hys', rfl⟩
      · rintro ⟨y, ys', hy, hys', rfl⟩
        exact ⟨y, hy, bind_eq_ok_iff.mpr ⟨ys', ih.mpr hys', rfl⟩⟩

theorem mem_iff_of_mapM_eq_ok
    {ε α β : Type} {f : α → Except ε β} {xs : List α} {ys : List β} {y : β}
    (hmap : xs.mapM f = .ok ys) :
    y ∈ ys ↔ ∃ x ∈ xs, f x = .ok y := by
  have hforall := mapM_eq_ok_iff.mp hmap
  clear hmap
  induction hforall with
  | nil => simp
  | cons hx _ ih => simp [hx, ih, eq_comm]

theorem exists_of_mapM_eq_ok
    {ε α β : Type} {f : α → Except ε β} {xs : List α} {ys : List β}
    (hmap : xs.mapM f = .ok ys) :
    ∀ x ∈ xs, ∃ y, f x = .ok y := by
  have hforall := mapM_eq_ok_iff.mp hmap
  clear hmap
  induction hforall with
  | nil => simp
  | cons hx _ ih => exact List.forall_mem_cons.mpr ⟨⟨_, hx⟩, ih⟩

theorem exists_of_mapM_eq_error
    {ε α β : Type} {f : α → Except ε β} {xs : List α} {e : ε}
    (hmap : xs.mapM f = .error e) :
    ∃ x ∈ xs, f x = .error e := by
  induction xs with
  | nil => cases hmap
  | cons x xs ih =>
      rw [List.mapM_cons] at hmap
      cases hx : f x with
      | error e' =>
          rw [hx] at hmap
          cases hmap
          exact ⟨x, List.mem_cons_self, hx⟩
      | ok y =>
          rw [hx] at hmap
          cases hrest : xs.mapM f with
          | error e' =>
              rw [hrest] at hmap
              cases hmap
              obtain ⟨x', hx', herror⟩ := ih hrest
              exact ⟨x', List.mem_cons_of_mem _ hx', herror⟩
          | ok ys =>
              rw [hrest] at hmap
              cases hmap

/-- The first element without a property is where it is in both splits. -/
theorem before_eq_of_first
    {α : Type} {P : α → Prop} {before before' behind behind' : List α} {x x' : α}
    (hsplit : before ++ x :: behind = before' ++ x' :: behind')
    (hbefore : ∀ y ∈ before, P y)
    (hx : ¬ P x)
    (hbefore' : ∀ y ∈ before', P y)
    (hx' : ¬ P x') :
    before = before' := by
  induction before generalizing before' with
  | nil =>
      cases before' with
      | nil => rfl
      | cons y rest =>
          cases hsplit
          exact absurd (hbefore' x List.mem_cons_self) hx
  | cons y rest ih =>
      cases before' with
      | nil =>
          cases hsplit
          exact absurd (hbefore x' List.mem_cons_self) hx'
      | cons y' rest' =>
          rw [List.cons_append, List.cons_append, List.cons.injEq] at hsplit
          obtain ⟨rfl, hrest⟩ := hsplit
          rw [ih hrest (List.forall_mem_cons.mp hbefore).2 (List.forall_mem_cons.mp hbefore').2]

/-! ## Patterns and rules -/

theorem dropWhile_of_prefix
    {α : Type} {P : α → Bool} {xs ys : List α}
    (hfront : ys <+: xs.dropWhile P) :
    ys.dropWhile P = ys := by
  cases ys with
  | nil => rfl
  | cons y ys =>
      obtain ⟨back, hback⟩ := hfront
      have hhead : P y = false := by
        have := List.head?_dropWhile_not P xs
        rw [← hback] at this
        simpa using this
      exact List.dropWhile_cons_of_neg (by simp [hhead])

theorem Text.trim_trim (s : String) : Text.trim (Text.trim s) = Text.trim s := by
  have hend : ∀ cs, Text.trimEnd (Text.trimEnd cs) = Text.trimEnd cs := by
    intro cs
    simp only [Text.trimEnd, List.reverse_reverse, dropWhile_of_prefix List.prefix_rfl]
  have hfront : Text.trimEnd (Text.trimStart s.toList) <+: Text.trimStart s.toList := by
    rw [← List.reverse_suffix, Text.trimEnd, List.reverse_reverse]
    exact List.dropWhile_suffix _
  have hstart : Text.trimStart (Text.trimEnd (Text.trimStart s.toList)) =
      Text.trimEnd (Text.trimStart s.toList) :=
    dropWhile_of_prefix hfront
  simp only [Text.trim, String.toList_ofList, hstart, hend]

theorem Fragment.parse_eq_ok
    {text : String} {side : Side} {fragment : Fragment}
    (hparse : Fragment.parse text side = .ok fragment) :
    ∃ program, Graft.parse (Text.trim text) = .ok program ∧ program.list .body ≠ [] ∧
      (fragment = .statements (program.list .body) ∨
        ∃ root, Fragment.loneExpression? (program.list .body) = some root ∧
          fragment = .expression root) := by
  unfold Fragment.parse at hparse
  simp only at hparse
  split at hparse
  next => simp at hparse
  next =>
    split at hparse
    next => simp at hparse
    next program hprogram =>
      refine ⟨program, hprogram, ?_⟩
      split at hparse
      next => simp at hparse
      next hbody =>
        refine ⟨fun hnil => hbody (by simp [hnil]), ?_⟩
        split at hparse
        next =>
          cases hparse
          exact Or.inl rfl
        next =>
          split at hparse
          next root hroot =>
            cases hparse
            exact Or.inr ⟨root, hroot, rfl⟩
          next =>
            cases hparse
            exact Or.inl rfl

/-- A fragment depends on its trimmed text alone, not on its side. -/
theorem Fragment.parse_of_trim_eq
    {text other : String} {side side' : Side} {fragment : Fragment}
    (htrim : Text.trim text = Text.trim other) (hparse : Fragment.parse text side = .ok fragment) :
    Fragment.parse other side' = .ok fragment := by
  unfold Fragment.parse at hparse ⊢
  rw [← htrim]
  dsimp only at hparse ⊢
  split at hparse
  next => cases hparse
  next hempty =>
    rw [if_neg hempty]
    cases hprogram : Graft.parse (Text.trim text) with
    | error e =>
      rw [hprogram] at hparse
      cases hparse
    | ok program =>
      rw [hprogram] at hparse
      dsimp only at hparse ⊢
      split at hparse
      next => cases hparse
      next hbody =>
        rw [if_neg hbody]
        exact hparse

theorem Fragment.nodes_ne_nil_of_parse
    {text : String} {side : Side} {fragment : Fragment}
    (hparse : Fragment.parse text side = .ok fragment) :
    fragment.nodes ≠ [] := by
  obtain ⟨program, -, hbody, rfl | ⟨root, -, rfl⟩⟩ := Fragment.parse_eq_ok hparse
  · exact hbody
  · simp [Fragment.nodes]

theorem Pattern.compile_eq_ok_iff {text : String} {p : Pattern} :
    Pattern.compile text = .ok p ↔
      Fragment.parse text .pattern = .ok p.fragment ∧
        Wildcards.collect p.fragment.nodes = .ok p.wildcards := by
  obtain ⟨fragment, wildcards⟩ := p
  unfold Pattern.compile
  simp only [bind_eq_ok_iff]
  constructor
  · rintro ⟨found, hparse, collected, hcollect, hpattern⟩
    cases hpattern
    exact ⟨hparse, hcollect⟩
  · rintro ⟨hparse, hcollect⟩
    exact ⟨fragment, hparse, wildcards, hcollect, rfl⟩

theorem Pattern.nodes_ne_nil_of_compile
    {text : String} {p : Pattern}
    (hcompile : Pattern.compile text = .ok p) :
    p.fragment.nodes ≠ [] :=
  Fragment.nodes_ne_nil_of_parse (Pattern.compile_eq_ok_iff.mp hcompile).1

end Graft
