import Graft.Proofs.Compile
import Graft.Proofs.StoreRuns

/-!
# Lookups that fail

A text that does not compile is never remembered.  Room is made before it is compiled, so a failed
lookup leaves a store as it was only if the store is not full; a full one is emptied.  The store of
the other kind is left alone in any case.  Full stores are reached by looking up one pattern behind
more and more blanks.
-/

namespace Graft

namespace Store

variable {α : Type} {compile : String → Except RuleError α} {s : Store α} {text : String}

theorem makeRoom_of_lt (hroom : s.size < capacity) : s.makeRoom = s :=
  if_neg (Nat.not_le.mpr hroom)

theorem makeRoom_of_le (hfull : capacity ≤ s.size) : s.makeRoom = {} := if_pos hfull

/-- What does not compile is not in the store. -/
theorem Sound.get?_of_error
    (hs : s.Sound compile)
    {cause : RuleError}
    (herror : compile text = .error cause) :
    s.get? text = none := by
  cases hget : s.get? text with
  | none => rfl
  | some value =>
      have hvalue := hs.faithful text value (mem_of_lookup_eq_some hget)
      rw [herror] at hvalue
      cases hvalue

theorem Sound.lookup_of_error
    (hs : s.Sound compile)
    {cause : RuleError}
    (herror : compile text = .error cause) :
    s.lookup compile text = (.error cause, s.makeRoom) :=
  Store.lookup_of_error (hs.get?_of_error herror) herror

theorem get?_eq_none_iff : s.get? text = none ↔ text ∉ s.entries.map Prod.fst := by
  rw [get?, List.lookup_eq_none_iff, List.mem_map]
  constructor
  · rintro habsent ⟨entry, hentry, rfl⟩
    simpa using habsent entry hentry
  · intro hnot entry hentry
    have hne : text ≠ entry.1 := fun heq => hnot ⟨entry, hentry, heq.symm⟩
    simpa using hne

end Store

namespace Stores

theorem after_append (s : Stores) (calls more : List Call) :
    s.after (calls ++ more) = (s.after calls).after more := by
  induction calls generalizing s with
  | nil => rfl
  | cons call calls ih => exact ih (s.perform call).2

/-! ## Full stores -/

/-- A pattern behind blanks. -/
def indented (i : Nat) : String := String.ofList (List.replicate i ' ' ++ ['g', 'o'])

/-- Lookups of a pattern behind no blank, one blank, and so on. -/
def filling (n : Nat) : List Call := (List.range n).map fun i => .pattern (indented i)

theorem indented_inj {i j : Nat} (heq : indented i = indented j) : i = j := by
  have hlength := congrArg (fun s : String => s.toList.length) heq
  simpa [indented] using hlength

theorem trim_indented (i : Nat) : Text.trim (indented i) = Text.trim "go" := by
  have hstart : Text.trimStart (List.replicate i ' ' ++ ['g', 'o']) = ['g', 'o'] := by
    induction i with
    | zero => rfl
    | succ i ih =>
        rw [List.replicate_succ, List.cons_append, Text.trimStart,
          List.dropWhile_cons_of_pos (by decide)]
        exact ih
  rw [Text.trim, indented, String.toList_ofList, hstart]
  rfl

theorem exists_compile_indented (i : Nat) : ∃ p, Pattern.compile (indented i) = .ok p := by
  have hok : (Pattern.compile "go").isOk = true := by decide +kernel
  cases hcompile : Pattern.compile "go" with
  | error cause =>
      rw [hcompile] at hok
      cases hok
  | ok p =>
      obtain ⟨hparse, hcollect⟩ := Pattern.compile_eq_ok_iff.mp hcompile
      have hparse' : Fragment.parse (indented i) .pattern = .ok p.fragment :=
        Fragment.parse_of_trim_eq (trim_indented i).symm hparse
      exact ⟨p, Pattern.compile_eq_ok_iff.mpr ⟨hparse', hcollect⟩⟩

/-- Up to the capacity each of the lookups adds its text. -/
theorem texts_after_filling {n : Nat} (hn : n ≤ Store.capacity) :
    (({} : Stores).after (filling n)).patterns.entries.map Prod.fst =
      ((List.range n).map indented).reverse := by
  induction n with
  | zero => rfl
  | succ n ih =>
      have htexts := ih (Nat.le_of_succ_le hn)
      obtain ⟨p, hp⟩ := exists_compile_indented n
      generalize hs : ({} : Stores).after (filling n) = s at htexts
      have hsize : s.patterns.size = n := by
        have hlength := congrArg List.length htexts
        simpa [Store.size] using hlength
      have hnew : s.patterns.get? (indented n) = none := by
        rw [Store.get?_eq_none_iff, htexts]
        simp only [List.mem_reverse, List.mem_map, List.mem_range, not_exists, not_and]
        intro i hi heq
        exact Nat.ne_of_lt hi (indented_inj heq)
      have hafter : ({} : Stores).after (filling (n + 1)) = (s.pattern (indented n)).2 := by
        rw [filling, List.range_succ, List.map_append, after_append, ← filling, hs]
        rfl
      have hlookup := Store.lookup_of_ok hnew hp
      rw [Store.makeRoom_of_lt (by rw [hsize]; exact hn)] at hlookup
      rw [hafter, Stores.pattern, hlookup, List.range_succ]
      simp [htexts]

theorem size_after_filling {n : Nat} (hn : n ≤ Store.capacity) :
    (({} : Stores).after (filling n)).patterns.size = n := by
  have hlength := congrArg List.length (texts_after_filling hn)
  simpa [Store.size] using hlength

/-! ## Failures -/

theorem exists_compile_error : ∃ cause, Pattern.compile "(" = .error cause := by
  have hfails : (Pattern.compile "(").isOk = false := by decide +kernel
  cases hcompile : Pattern.compile "(" with
  | error cause => exact ⟨cause, rfl⟩
  | ok p =>
      rw [hcompile] at hfails
      cases hfails

theorem Sound.pattern_of_error
    {s : Stores}
    (hs : s.Sound)
    {text : String} {cause : RuleError}
    (herror : Pattern.compile text = .error cause) :
    s.pattern text = (.error cause, { s with patterns := s.patterns.makeRoom }) := by
  rw [Stores.pattern, hs.patterns.lookup_of_error herror]

theorem Sound.rule_of_error
    {s : Stores}
    (hs : s.Sound)
    {text : String} {cause : RuleError}
    (herror : Rule.compile text = .error cause) :
    s.rule text = (.error cause, { s with rules := s.rules.makeRoom }) := by
  rw [Stores.rule, hs.rules.lookup_of_error herror]

/-- A failed lookup does not leave a full store with its entries. -/
theorem failed_lookup_empties_full_store :
    let s := ({} : Stores).after (filling 256)
    ∃ cause, Pattern.compile "(" = .error cause ∧ (s.pattern "(").1 = .error cause ∧
      s.patterns.size = 256 ∧ (s.pattern "(").2.patterns.size = 0 ∧
      (s.pattern "(").2.patterns.entries ≠ s.patterns.entries := by
  intro s
  have hs : s.Sound := Sound.empty.after (filling 256)
  have hsize : s.patterns.size = 256 := size_after_filling (n := 256) (Nat.le_refl 256)
  clear_value s
  obtain ⟨cause, hcause⟩ := exists_compile_error
  have hempty : s.patterns.makeRoom = {} := Store.makeRoom_of_le (Nat.le_of_eq hsize.symm)
  rw [hs.pattern_of_error hcause, hempty]
  refine ⟨cause, hcause, rfl, hsize, rfl, fun heq => ?_⟩
  rw [Store.size, ← heq] at hsize
  cases hsize

/-- Behind any sequence of calls a text that does not compile is answered with its error.  The
store of the other kind keeps its entries; the store that was asked keeps them if it holds fewer
than 256, and is left empty if it holds that many, which is the most it can hold. -/
theorem failed_lookup_keeps_unless_full (calls : List Call) (text : String) :
    let s := ({} : Stores).after calls
    (∀ cause, Rule.compile text = .error cause →
      (s.rule text).1 = .error cause ∧ (s.rule text).2.patterns = s.patterns ∧
        (s.rules.size < 256 → (s.rule text).2 = s) ∧
        (s.rules.size = 256 → (s.rule text).2.rules.entries = [])) ∧
    (∀ cause, Pattern.compile text = .error cause →
      (s.pattern text).1 = .error cause ∧ (s.pattern text).2.rules = s.rules ∧
        (s.patterns.size < 256 → (s.pattern text).2 = s) ∧
        (s.patterns.size = 256 → (s.pattern text).2.patterns.entries = [])) ∧
    s.rules.size ≤ 256 ∧ s.patterns.size ≤ 256 := by
  intro s
  have hs : s.Sound := Sound.empty.after calls
  refine ⟨fun cause herror => ?_, fun cause herror => ?_, hs.rules.bounded, hs.patterns.bounded⟩
  · rw [hs.rule_of_error herror]
    refine ⟨rfl, rfl, fun hroom => ?_, fun hfull => ?_⟩
    · rw [Store.makeRoom_of_lt hroom]
    · rw [Store.makeRoom_of_le (Nat.le_of_eq hfull.symm)]
  · rw [hs.pattern_of_error herror]
    refine ⟨rfl, rfl, fun hroom => ?_, fun hfull => ?_⟩
    · rw [Store.makeRoom_of_lt hroom]
    · rw [Store.makeRoom_of_le (Nat.le_of_eq hfull.symm)]

/-- A store with room for one more pattern is kept, and a full one is not. -/
theorem failed_lookup_keeps_unless_full_filled :
    (({} : Stores).after (filling 255)).patterns.size = 255 ∧
      ((({} : Stores).after (filling 255)).pattern "(").2 = ({} : Stores).after (filling 255) ∧
      (({} : Stores).after (filling 256)).patterns.size = 256 ∧
      ((({} : Stores).after (filling 256)).pattern "(").2.patterns.entries = [] ∧
      (({} : Stores).rule "(").2 = {} := by
  have hsize := size_after_filling (n := 255) (by decide)
  have hfull := size_after_filling (n := 256) (Nat.le_refl 256)
  have hrule : Rule.compile "(" = .error .missingDelimiter := rfl
  obtain ⟨cause, hcause⟩ := exists_compile_error
  obtain ⟨-, hpattern, -⟩ := failed_lookup_keeps_unless_full (filling 255) "("
  obtain ⟨-, hpattern', -⟩ := failed_lookup_keeps_unless_full (filling 256) "("
  obtain ⟨hrules, -⟩ := failed_lookup_keeps_unless_full [] "("
  obtain ⟨-, -, hkept, -⟩ := hpattern cause hcause
  obtain ⟨-, -, -, hemptied⟩ := hpattern' cause hcause
  obtain ⟨-, -, hrules, -⟩ := hrules _ hrule
  exact ⟨hsize, hkept (by rw [hsize]; decide), hfull, hemptied hfull, hrules (by decide)⟩

end Stores
end Graft
