import Graft.Edit.Instantiate
import Graft.Edit.Splice
import Graft.Match.Find

/-!
# Applying a rule to a tree

All matches that do not overlap are replaced, the last one first: an earlier match is never
inside a later one, so its place is still the same when its turn comes.
-/

namespace Graft

/-- A tree after a rule, with the number of matches found and of those replaced. -/
structure Transformed where
  tree : Node
  found : Nat
  applied : Nat

def Rule.replaceAll (rule : Rule) : List Match → Node → Except EditError Node
  | [], root => .ok root
  | m :: ms, root => do
    let tree ← rule.replaceAll ms root
    let replacement ← rule.template.instantiate m.bindings
    tree.splice m.region replacement

def Rule.transform (rule : Rule) (root : Node) : Except EditError Transformed := do
  let found := rule.pattern.findAll root
  let selected := selectDisjoint found
  return ⟨← rule.replaceAll selected root, found.length, selected.length⟩

end Graft
