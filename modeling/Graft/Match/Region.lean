import Graft.Tree.Path

/-!
# Regions

A region of a tree is one node, or a run of nodes in a list.  A run is counted with machine words:
its start and its length are such that their sum stays below 2 ^ 64, as it does for every run of a
list that is held in memory.
-/

namespace Graft

inductive Region where
  | node (path : Path)
  /-- The nodes of a list from `start` on, with `start + length` below 2 ^ 64. -/
  | run (parent : Path) (field : Field) (start length : Nat)
deriving DecidableEq, Repr, Inhabited

namespace Region

/-- The paths of the topmost nodes of a region.  The last place of a run, `start + length - 1`, is a
machine word like the places before it. -/
def roots : Region → List Path
  | node path => [path]
  | run parent field start length =>
    (List.range' start length).map fun i => parent ++ [⟨field, some i⟩]

/-- One path leads through the other. -/
def comparable (a b : Path) : Bool := a.isPrefixOf b || b.isPrefixOf a

/-- The regions share a node. -/
def overlaps (a b : Region) : Bool :=
  a.roots.any fun p => b.roots.any fun q => comparable p q

/-- The region seen from one step above. -/
def under (step : Step) : Region → Region
  | node path => node (step :: path)
  | run parent field start length => run (step :: parent) field start length

end Region
end Graft
