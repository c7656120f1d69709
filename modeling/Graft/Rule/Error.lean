import Graft.Grammar.Program

/-!
# What is wrong with a rule
-/

namespace Graft

/-- The two halves of a rule. -/
inductive Side where
  | pattern
  | template
deriving DecidableEq, Repr, Inhabited

def Side.name : Side → String
  | pattern => "pattern"
  | template => "replacement"

inductive RuleError where
  | missingDelimiter
  | emptyFragment (side : Side)
  /-- A half does not read as a program. -/
  | malformed (side : Side) (cause : SyntaxError)
  /-- A rest wildcard stands before the end of its list. -/
  | restNotLast (name : String)
  /-- A name is used as a value and as a rest wildcard. -/
  | conflictingWildcard (name : String)
  /-- The template uses a wildcard that the pattern does not have. -/
  | undeclaredWildcard (name : String)
deriving DecidableEq, Repr, Inhabited

namespace RuleError

def message : RuleError → String
  | missingDelimiter => "rule has no '->' delimiter"
  | emptyFragment side => side.name ++ " fragment is empty"
  | malformed side cause => side.name ++ " fragment does not parse: " ++ cause.message
  | restNotLast name => s!"rest wildcard '...{name}' must be the last element of its list"
  | conflictingWildcard name =>
    s!"wildcard '{name}' is used both as a value and as a rest wildcard"
  | undeclaredWildcard name =>
    s!"replacement uses wildcard '{name}' which the pattern never binds"

end RuleError
end Graft
