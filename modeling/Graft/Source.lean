import Graft.Check.Jump
import Graft.Edit.Transform

/-!
# Operations on source text

Searching, transforming and formatting a program given as text.  Rules and patterns are compiled
before the program is read, so their errors come first.
-/

namespace Graft

/-- Why an operation on source text fails. -/
inductive Failure where
  | malformed (cause : SyntaxError)
  | rule (cause : RuleError)
  | edit (cause : EditError)
deriving DecidableEq, Repr, Inhabited

def Failure.message : Failure → String
  | malformed cause => cause.message
  | rule cause => "invalid rule: " ++ cause.message
  | edit cause => "cannot apply rule: " ++ cause.message

/-- The tree of a program. -/
def readTree (source : String) : Except Failure Node := (parse source).mapError .malformed

def Pattern.search (p : Pattern) (source : String) : Except Failure (List Match) := do
  return p.findAll (← readTree source)

/-- All matches of a pattern in a program. -/
def search (source pattern : String) : Except Failure (List Match) := do
  let p ← (Pattern.compile pattern).mapError .rule
  p.search source

/-- Applies rules one after the other and counts the replacements. -/
def Rule.transformTree : List Rule → Node → Except EditError (Node × Nat)
  | [], root => .ok (root, 0)
  | rule :: rules, root => do
    let pass ← rule.transform root
    let (tree, applied) ← transformTree rules pass.tree
    return (tree, pass.applied + applied)

/-- A program that no rule changes is left as it was written. -/
def Rule.transformSource (rules : List Rule) (source : String) : Except Failure String := do
  let root ← readTree source
  let (tree, applied) ← (Rule.transformTree rules root).mapError .edit
  return if applied = 0 then source else tree.print .edited

/-- Applies rules to a program, each to the result of the one before. -/
def transformAll (source : String) (rules : List String) : Except Failure String := do
  let compiled ← (rules.mapM Rule.compile).mapError .rule
  Rule.transformSource compiled source

def transform (source rule : String) : Except Failure String := do
  let compiled ← (Rule.compile rule).mapError .rule
  Rule.transformSource [compiled] source

/-- Prints a program in a style. -/
def format (source : String) (style : Style) : Except Failure String := do
  return (← readTree source).print style

end Graft
