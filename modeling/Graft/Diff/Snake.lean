/-!
# Shortest edits

A line of the old text is kept or deleted, a line of the new text is kept or inserted.  The edit
with the fewest changes is found by searching from both ends of the two texts at once, and by
splitting both texts where the two searches meet.
-/

namespace Graft.Diff

inductive Tag where
  | keep
  | delete
  | insert
deriving DecidableEq, Repr, Inhabited

/-- Consecutive lines of one tag. -/
structure Run where
  tag : Tag
  lines : List String
deriving DecidableEq, Repr, Inhabited

/-- The number of lines at the start that agree. -/
def commonStart : List String → List String → Nat
  | a :: as, b :: bs => if a = b then commonStart as bs + 1 else 0
  | _, _ => 0

def commonEnd (as bs : List String) : Nat := commonStart as.reverse bs.reverse

/-- How far the search has come on each diagonal, counted in lines of the old text. -/
structure Reach where
  center : Nat
  values : Array Nat

namespace Reach

def empty (width : Nat) : Reach := ⟨width + 1, Array.replicate (2 * width + 3) 0⟩

def get (r : Reach) (k : Int) : Nat := r.values.getD (r.center + k).toNat 0

def set (r : Reach) (k : Int) (x : Nat) : Reach :=
  { r with values := r.values.setIfInBounds (r.center + k).toNat x }

/-- The place from which a search with one more change goes on along diagonal `k`. -/
def start (r : Reach) (d : Nat) (k : Int) : Nat :=
  if k = -d ∨ (k ≠ d ∧ r.get (k - 1) < r.get (k + 1)) then r.get (k + 1) else r.get (k - 1) + 1

end Reach

/-- The two texts between which an edit is looked for. -/
structure Sides where
  old : Array String
  new : Array String

namespace Sides

/-- The number of agreeing lines that follow a pair of places. -/
def agreeAfter (s : Sides) (x y : Nat) : Nat :=
  let room := min (s.old.size - x) (s.new.size - y)
  ((List.range room).takeWhile fun i => s.old[x + i]? == s.new[y + i]?).length

/-- The number of agreeing lines that precede a pair of places, which count from the end. -/
def agreeBefore (s : Sides) (x y : Nat) : Nat :=
  let (n, m) := (s.old.size, s.new.size)
  let room := min (n - x) (m - y)
  ((List.range room).takeWhile fun i =>
    s.old[n - x - 1 - i]? == s.new[m - y - 1 - i]?).length

def delta (s : Sides) : Int := (s.old.size : Int) - s.new.size

/-- One diagonal of the search from the start; fails with the place where the searches meet. -/
def forward (s : Sides) (d : Nat) (backward : Reach) (reach : Reach) (k : Int) :
    Except (Nat × Nat) Reach :=
  let x := reach.start d k
  let y := (x - k : Int).toNat
  let far := x + s.agreeAfter x y
  let meets := s.delta % 2 ≠ 0 ∧ (k - s.delta).natAbs + 1 ≤ d ∧
    s.old.size ≤ far + backward.get (s.delta - k)
  if meets then .error (x, y) else .ok (reach.set k far)

/-- One diagonal of the search from the end. -/
def backward (s : Sides) (d : Nat) (forward : Reach) (reach : Reach) (k : Int) :
    Except (Nat × Nat) Reach :=
  let x := reach.start d k
  let y := (x - k : Int).toNat
  let agreeing := s.agreeBefore x y
  let far := x + agreeing
  let meets := s.delta % 2 = 0 ∧ (k - s.delta).natAbs ≤ d ∧
    s.old.size ≤ far + forward.get (s.delta - k)
  if meets then .error (s.old.size - far, s.new.size - (y + agreeing)) else .ok (reach.set k far)

/-- The diagonals that `d` changes lead to, from the rightmost to the leftmost. -/
def diagonals (d : Nat) : List Int := (List.range (d + 1)).map fun i => (d : Int) - 2 * (i : Nat)

/-- The searches with `d` changes, and then those with more. -/
def meeting? (s : Sides) : Nat → Nat → Reach → Reach → Option (Nat × Nat)
  | 0, _, _, _ => none
  | rounds + 1, d, fore, back =>
    match (diagonals d).foldlM (s.forward d back) fore with
    | .error place => some place
    | .ok fore =>
      match (diagonals d).foldlM (s.backward d fore) back with
      | .error place => some place
      | .ok back => meeting? s rounds (d + 1) fore back

/-- Where to split the two texts. -/
def split? (s : Sides) : Option (Nat × Nat) :=
  let width := (s.old.size + s.new.size + 1) / 2 + 1
  s.meeting? width 0 (.empty width) (.empty width)

end Sides

def run (tag : Tag) (lines : List String) : List Run :=
  if lines.isEmpty then [] else [⟨tag, lines⟩]

/-- The runs of a shortest edit.  The fuel bounds the number of splits on the way to a part. -/
def editRuns : Nat → List String → List String → List Run
  | 0, old, new => run .delete old ++ run .insert new
  | fuel + 1, old, new =>
    let start := commonStart old new
    let (common, old, new) := (old.take start, old.drop start, new.drop start)
    let stop := commonEnd old new
    let tail := old.drop (old.length - stop)
    let (old, new) := (old.take (old.length - stop), new.take (new.length - stop))
    let middle :=
      if old.isEmpty || new.isEmpty then run .delete old ++ run .insert new
      else
        match (Sides.mk old.toArray new.toArray).split? with
        | some (x, y) =>
          editRuns fuel (old.take x) (new.take y) ++ editRuns fuel (old.drop x) (new.drop y)
        | none => run .delete old ++ run .insert new
    run .keep common ++ middle ++ run .keep tail

end Graft.Diff
