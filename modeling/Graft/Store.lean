import Graft.Source

/-!
# Stores of compiled rules

Compiled rules and patterns are remembered by their text in two stores.  A store holds a bounded
number of entries and is emptied when a new text finds it full.  What does not compile is not
remembered.
-/

namespace Graft

structure Store (α : Type) where
  entries : List (String × α) := []

namespace Store

def capacity : Nat := 256

def size (s : Store α) : Nat := s.entries.length

def get? (s : Store α) (text : String) : Option α := s.entries.lookup text

/-- Makes room for one more entry. -/
def makeRoom (s : Store α) : Store α := if capacity ≤ s.size then {} else s

/-- The value of a text, compiled and remembered if it is new. -/
def lookup (compile : String → Except RuleError α) (s : Store α) (text : String) :
    Except RuleError α × Store α :=
  match s.get? text with
  | some value => (.ok value, s)
  | none =>
    let s := s.makeRoom
    match compile text with
    | .ok value => (.ok value, ⟨(text, value) :: s.entries⟩)
    | .error e => (.error e, s)

end Store

structure Stores where
  rules : Store Rule := {}
  patterns : Store Pattern := {}

namespace Stores

def size (s : Stores) : Nat := s.rules.size + s.patterns.size

def rule (s : Stores) (text : String) : Except RuleError Rule × Stores :=
  let (result, rules) := s.rules.lookup Rule.compile text
  (result, { s with rules })

def pattern (s : Stores) (text : String) : Except RuleError Pattern × Stores :=
  let (result, patterns) := s.patterns.lookup Pattern.compile text
  (result, { s with patterns })

/-- Forgets everything. -/
def clear (_ : Stores) : Stores := {}

/-- Applies a rule to a program, looking it up first. -/
def transform (s : Stores) (source text : String) : Except Failure String × Stores :=
  let (result, s) := s.rule text
  (do Rule.transformSource [← result.mapError .rule] source, s)

/-- Searches a program for a pattern, looking it up first. -/
def search (s : Stores) (source text : String) : Except Failure (List Match) × Stores :=
  let (result, s) := s.pattern text
  (do (← result.mapError .rule).search source, s)

end Stores
end Graft
