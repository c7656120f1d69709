import Graft.Tree.Node

/-!
# Paths

A path addresses a node below a root by a list of steps.  A step names a slot and, in a list, a
position.
-/

namespace Graft

structure Step where
  field : Field
  index : Option Nat
deriving DecidableEq, Repr, Inhabited

abbrev Path := List Step

namespace Path

def resolve? : Path → Node → Option Node
  | [], n => some n
  | step :: rest, n => do
    let slot ← n.slot? step.field
    let child ← slot.child? step.index
    resolve? rest child

@[simp] theorem resolve?_nil (n : Node) : resolve? [] n = some n := rfl

theorem resolve?_append (p q : Path) (n : Node) :
    resolve? (p ++ q) n = (resolve? p n).bind (resolve? q) := by
  induction p generalizing n with
  | nil => rfl
  | cons step rest ih =>
    simp only [List.cons_append, resolve?, Option.bind_eq_bind]
    cases n.slot? step.field with
    | none => rfl
    | some slot =>
      simp only [Option.bind_some]
      cases slot.child? step.index with
      | none => rfl
      | some child => exact ih child

end Path
end Graft
