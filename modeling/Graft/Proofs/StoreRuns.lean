import Graft.Proofs.Subtree
import Graft.Store

/-!
# Runs of the stores

A store is sound when it holds no text twice, gives for each text what compiling it gives, and is
within its capacity.  A lookup in a sound store answers as if there were no store and leaves a sound
store behind.  By induction this holds along every sequence of calls from empty stores.
-/

namespace Graft

namespace Store

variable {α : Type} {compile : String → Except RuleError α} {s : Store α} {text : String}
  {value : α}

structure Sound (compile : String → Except RuleError α) (s : Store α) : Prop where
  faithful : ∀ text value, (text, value) ∈ s.entries → compile text = .ok value
  distinct : (s.entries.map Prod.fst).Nodup
  bounded : s.size ≤ capacity

theorem Sound.empty : Sound compile {} := by
  constructor
  · simp
  · simp
  · simp [size]

theorem Sound.makeRoom (hs : s.Sound compile) : s.makeRoom.Sound compile := by
  unfold Store.makeRoom
  split
  · exact .empty
  · exact hs

theorem size_makeRoom_lt : s.makeRoom.size < capacity := by
  unfold Store.makeRoom
  split
  · simp [size, capacity]
  · omega

/-- Making room brings no text into a store. -/
theorem get?_makeRoom (hnone : s.get? text = none) : s.makeRoom.get? text = none := by
  unfold Store.makeRoom
  split
  · rfl
  · exact hnone

theorem lookup_of_get? (hget : s.get? text = some value) :
    s.lookup compile text = (.ok value, s) := by
  simp only [lookup, hget]

theorem lookup_of_ok (hget : s.get? text = none) (hcompile : compile text = .ok value) :
    s.lookup compile text = (.ok value, ⟨(text, value) :: s.makeRoom.entries⟩) := by
  simp only [lookup, hget, hcompile]

theorem lookup_of_error
    {cause : RuleError}
    (hget : s.get? text = none) (hcompile : compile text = .error cause) :
    s.lookup compile text = (.error cause, s.makeRoom) := by
  simp only [lookup, hget, hcompile]

/-- The answer of a lookup is that of the compiler, whether or not the text was known. -/
theorem Sound.lookup_fst (hs : s.Sound compile) (text : String) :
    (s.lookup compile text).1 = compile text := by
  cases hget : s.get? text with
  | some value =>
      rw [lookup_of_get? hget]
      exact (hs.faithful text value (mem_of_lookup_eq_some hget)).symm
  | none =>
      cases hcompile : compile text with
      | ok value => rw [lookup_of_ok hget hcompile]
      | error cause => rw [lookup_of_error hget hcompile]

/-- A new text is put in front of fewer entries than the capacity, none of which is its own. -/
theorem Sound.cons
    (hs : s.Sound compile)
    (hget : s.get? text = none)
    (hcompile : compile text = .ok value)
    (hroom : s.size < capacity) :
    Sound compile ⟨(text, value) :: s.entries⟩ := by
  constructor
  · intro other found hmem
    rcases List.mem_cons.mp hmem with heq | hold
    · cases heq
      exact hcompile
    · exact hs.faithful other found hold
  · rw [List.map_cons, List.nodup_cons]
    refine ⟨?_, hs.distinct⟩
    intro hmem
    obtain ⟨entry, hentry, rfl⟩ := List.mem_map.mp hmem
    have habsent := List.lookup_eq_none_iff.mp hget entry hentry
    simp at habsent
  · exact hroom

theorem Sound.lookup_snd (hs : s.Sound compile) (text : String) :
    (s.lookup compile text).2.Sound compile := by
  cases hget : s.get? text with
  | some value =>
      rw [lookup_of_get? hget]
      exact hs
  | none =>
      cases hcompile : compile text with
      | ok value =>
          rw [lookup_of_ok hget hcompile]
          exact hs.makeRoom.cons (get?_makeRoom hget) hcompile size_makeRoom_lt
      | error cause =>
          rw [lookup_of_error hget hcompile]
          exact hs.makeRoom

/-- What a lookup has answered is in the store behind it. -/
theorem get?_of_lookup (hlookup : (s.lookup compile text).1 = .ok value) :
    (s.lookup compile text).2.get? text = some value := by
  cases hget : s.get? text with
  | some known =>
      rw [lookup_of_get? hget] at hlookup ⊢
      cases hlookup
      exact hget
  | none =>
      cases hcompile : compile text with
      | ok found =>
          rw [lookup_of_ok hget hcompile] at hlookup ⊢
          cases hlookup
          simp [Store.get?]
      | error cause =>
          rw [lookup_of_error hget hcompile] at hlookup
          cases hlookup

end Store

namespace Stores

/-- What can be asked of the stores. -/
inductive Call where
  | rule (text : String)
  | pattern (text : String)
  | clear

inductive Answer where
  | rule (result : Except RuleError Rule)
  | pattern (result : Except RuleError Pattern)
  | cleared

/-- The answer where nothing is remembered. -/
def Call.compiled : Call → Answer
  | rule text => .rule (Rule.compile text)
  | pattern text => .pattern (Pattern.compile text)
  | clear => .cleared

def perform (s : Stores) : Call → Answer × Stores
  | .rule text => (.rule (s.rule text).1, (s.rule text).2)
  | .pattern text => (.pattern (s.pattern text).1, (s.pattern text).2)
  | .clear => (.cleared, s.clear)

/-- The stores behind a sequence of calls. -/
def after (s : Stores) : List Call → Stores
  | [] => s
  | call :: calls => (s.perform call).2.after calls

/-- The answers to a sequence of calls. -/
def answers (s : Stores) : List Call → List Answer
  | [] => []
  | call :: calls => (s.perform call).1 :: (s.perform call).2.answers calls

structure Sound (s : Stores) : Prop where
  rules : s.rules.Sound Rule.compile
  patterns : s.patterns.Sound Pattern.compile

variable {s : Stores}

theorem Sound.empty : Sound {} := ⟨.empty, .empty⟩

theorem Sound.perform (hs : s.Sound) (call : Call) :
    (s.perform call).1 = call.compiled ∧ (s.perform call).2.Sound := by
  cases call with
  | rule text =>
      exact ⟨congrArg Answer.rule (hs.rules.lookup_fst text),
        hs.rules.lookup_snd text, hs.patterns⟩
  | pattern text =>
      exact ⟨congrArg Answer.pattern (hs.patterns.lookup_fst text),
        hs.rules, hs.patterns.lookup_snd text⟩
  | clear => exact ⟨rfl, .empty⟩

theorem Sound.after (hs : s.Sound) (calls : List Call) : (s.after calls).Sound := by
  induction calls generalizing s with
  | nil => exact hs
  | cons call calls ih => exact ih (hs.perform call).2

theorem Sound.answers (hs : s.Sound) (calls : List Call) :
    s.answers calls = calls.map Call.compiled := by
  induction calls generalizing s with
  | nil => rfl
  | cons call calls ih =>
      obtain ⟨hanswer, hnext⟩ := hs.perform call
      rw [Stores.answers, hanswer, ih hnext, List.map_cons]

theorem rule_again {text : String} {rule : Rule} (hrule : (s.rule text).1 = .ok rule) :
    (s.rule text).2.rules.get? text = some rule ∧
      (s.rule text).2.rule text = (.ok rule, (s.rule text).2) := by
  have hget : (s.rule text).2.rules.get? text = some rule := Store.get?_of_lookup hrule
  refine ⟨hget, ?_⟩
  rw [Stores.rule, Store.lookup_of_get? hget]

theorem pattern_again
    {text : String} {pattern : Pattern}
    (hpattern : (s.pattern text).1 = .ok pattern) :
    (s.pattern text).2.patterns.get? text = some pattern ∧
      (s.pattern text).2.pattern text = (.ok pattern, (s.pattern text).2) := by
  have hget : (s.pattern text).2.patterns.get? text = some pattern := Store.get?_of_lookup hpattern
  refine ⟨hget, ?_⟩
  rw [Stores.pattern, Store.lookup_of_get? hget]

/-- From empty stores every call is answered as if nothing were remembered.  Behind any sequence of
calls the stores hold what compiling their texts gives, each text once and at most 256 of a kind; a
lookup of one kind leaves the other store alone, and a lookup that succeeded is a hit when it is
made again. -/
theorem lookups_transparent_and_bounded (calls : List Call) :
    let s := ({} : Stores).after calls
    ({} : Stores).answers calls = calls.map Call.compiled ∧
      (∀ text rule, (text, rule) ∈ s.rules.entries → Rule.compile text = .ok rule) ∧
      (∀ text pattern, (text, pattern) ∈ s.patterns.entries →
        Pattern.compile text = .ok pattern) ∧
      (s.rules.entries.map Prod.fst).Nodup ∧ (s.patterns.entries.map Prod.fst).Nodup ∧
      s.rules.size ≤ 256 ∧ s.patterns.size ≤ 256 ∧ s.size ≤ 512 ∧
      ∀ text,
        (s.rule text).1 = Rule.compile text ∧ (s.pattern text).1 = Pattern.compile text ∧
        (s.rule text).2.patterns = s.patterns ∧ (s.pattern text).2.rules = s.rules ∧
        (∀ rule, (s.rule text).1 = .ok rule →
          (s.rule text).2.rules.get? text = some rule ∧
            (s.rule text).2.rule text = (.ok rule, (s.rule text).2)) ∧
        ∀ pattern, (s.pattern text).1 = .ok pattern →
          (s.pattern text).2.patterns.get? text = some pattern ∧
            (s.pattern text).2.pattern text = (.ok pattern, (s.pattern text).2) := by
  intro s
  have hs : s.Sound := Sound.empty.after calls
  have hrules : s.rules.size ≤ 256 := hs.rules.bounded
  have hpatterns : s.patterns.size ≤ 256 := hs.patterns.bounded
  refine ⟨Sound.empty.answers calls, hs.rules.faithful, hs.patterns.faithful, hs.rules.distinct,
    hs.patterns.distinct, hrules, hpatterns, Nat.add_le_add hrules hpatterns, fun text => ?_⟩
  exact ⟨hs.rules.lookup_fst text, hs.patterns.lookup_fst text, rfl, rfl,
    fun _ => rule_again, fun _ => pattern_again⟩

/-- Behind a lookup that failed and one that did not, the rule of the latter is a hit. -/
theorem lookups_transparent_and_bounded_hit :
    ∃ rule, Rule.compile "f(...a) -> g(...a)" = .ok rule ∧
      ((({} : Stores).after [.pattern "f(", .rule "f(...a) -> g(...a)"]).rule
        "f(...a) -> g(...a)").2.rules.get? "f(...a) -> g(...a)" = some rule := by
  have hcompiles : (Rule.compile "f(...a) -> g(...a)").isOk = true := by decide +kernel
  cases hrule : Rule.compile "f(...a) -> g(...a)" with
  | error cause =>
      rw [hrule] at hcompiles
      cases hcompiles
  | ok rule =>
      refine ⟨rule, rfl, ?_⟩
      obtain ⟨-, -, -, -, -, -, -, -, hlookups⟩ :=
        lookups_transparent_and_bounded [.pattern "f(", .rule "f(...a) -> g(...a)"]
      obtain ⟨hanswer, -, -, -, hagain, -⟩ := hlookups "f(...a) -> g(...a)"
      exact (hagain rule (hanswer.trans hrule)).1

end Stores
end Graft
