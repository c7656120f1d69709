import Graft.Match.Bindings
import Graft.Rule.Wildcard

/-!
# Unification

A pattern fits a tree when the tree has the same structure after each wildcard is replaced by
what it is bound to.  An empty block in a pattern fits any block.  Bindings are threaded through
from left to right, and those made before a failure are kept.
-/

namespace Graft

/-- Goes on only after a success. -/
def andThen (result : Bool × Bindings) (next : Bindings → Bool × Bindings) : Bool × Bindings :=
  if result.1 then next result.2 else result

/-- `...x` at the end of a list stands for any number of elements. -/
def lengthsFit (tail : Option String) (pattern candidate : List Node) : Bool :=
  match tail with
  | some _ => pattern.length ≤ candidate.length + 1
  | none => pattern.length = candidate.length

mutual

def Node.unify (w : Wildcards) : Node → Node → Bindings → Bool × Bindings
  | .mk kind span slots, candidate, bs =>
    let pattern : Node := .mk kind span slots
    match w.valueName? pattern with
    | some name => bs.bind name (.node candidate)
    | none =>
      if kind ≠ candidate.kind then (false, bs)
      else if kind = .blockStatement ∧ (pattern.list .body).isEmpty then (true, bs)
      else unifySlots w kind slots candidate bs
termination_by structural n => n

def Slot.unify (w : Wildcards) (parent : Kind) (field : Field) :
    Slot → Slot → Bindings → Bool × Bindings
  | .node p, .node c, bs =>
    if isDirectCallee parent field p then (p.sameStructure c, bs) else p.unify w c bs
  | .list ps, .list cs, bs =>
    let tail := ps.getLast?.bind w.restName?
    if lengthsFit tail ps cs then unifyNodes w tail ps cs bs else (false, bs)
  | .absent, .absent, bs => (true, bs)
  | .scalar a, .scalar b, bs => (a.same b, bs)
  | _, _, bs => (false, bs)
termination_by structural s => s

/-- Every slot of the pattern fits; a missing slot counts as absent. -/
def unifySlots (w : Wildcards) (parent : Kind) :
    List (Field × Slot) → Node → Bindings → Bool × Bindings
  | [], _, bs => (true, bs)
  | (field, slot) :: rest, candidate, bs =>
    andThen (slot.unify w parent field ((candidate.slot? field).getD .absent) bs)
      (unifySlots w parent rest candidate)
termination_by structural ss => ss

/-- Fits nodes one by one; with a tail, the last node of the pattern takes all that is left. -/
def unifyNodes (w : Wildcards) (tail : Option String) :
    List Node → List Node → Bindings → Bool × Bindings
  | [], _, bs => (true, bs)
  | p :: ps, cs, bs =>
    match tail, ps, cs with
    | some name, [], cs => bs.bind name (.rest cs)
    | _, _, [] => (false, bs)
    | _, _, c :: cs => andThen (p.unify w c bs) (unifyNodes w tail ps cs)
termination_by structural ns => ns

end

/-- Fits two sequences of the same length node by node. -/
def unifySequence (w : Wildcards) (pattern candidate : List Node) (bs : Bindings := []) :
    Bool × Bindings :=
  if pattern.length = candidate.length then unifyNodes w none pattern candidate bs
  else (false, bs)

end Graft
