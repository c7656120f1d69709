import Graft.Rule.Split
import Graft.Rule.Wildcard
import Graft.Text.Blank

/-!
# Patterns and rules

A pattern is one expression or a run of statements, with its wildcards classified once.  A rule
adds a template whose wildcards all occur in the pattern.
-/

namespace Graft

/-- One half of a rule. -/
inductive Fragment where
  | expression (root : Node)
  | statements (body : List Node)

namespace Fragment

def nodes : Fragment → List Node
  | expression root => [root]
  | statements body => body

/-- The expression of a lone expression statement. -/
def loneExpression? : List Node → Option Node
  | [only] => if only.kind = .expressionStatement then only.child? .expression else none
  | _ => none

/-- One expression without a semicolon behind it stands for an expression, anything else for
statements. -/
def parse (text : String) (side : Side) : Except RuleError Fragment :=
  let trimmed := Text.trim text
  if trimmed.isEmpty then .error (.emptyFragment side)
  else
    match Graft.parse trimmed with
    | .error cause => .error (.malformed side cause)
    | .ok program =>
      let body := program.list .body
      if body.isEmpty then .error (.emptyFragment side)
      else if trimmed.toList.getLast? = some ';' then .ok (.statements body)
      else
        match loneExpression? body with
        | some root => .ok (.expression root)
        | none => .ok (.statements body)

end Fragment

structure Pattern where
  fragment : Fragment
  wildcards : Wildcards

def Pattern.compile (text : String) : Except RuleError Pattern := do
  let fragment ← Fragment.parse text .pattern
  let wildcards ← Wildcards.collect fragment.nodes
  return ⟨fragment, wildcards⟩

structure Rule where
  pattern : Pattern
  template : Fragment

/-- The halves are read from left to right, and the names of the template are looked up last. -/
def Rule.compile (text : String) : Except RuleError Rule := do
  let some (left, right) := Rule.split? text | .error .missingDelimiter
  let pattern ← Pattern.compile left
  let template ← Fragment.parse right .template
  match (referencedNames template.nodes).find? fun name => !pattern.wildcards.contains name with
  | some name => .error (.undeclaredWildcard name)
  | none => return ⟨pattern, template⟩

end Graft
