import Graft.Diff.Snake

/-!
# Line differences

The lines of two texts, tagged as kept, deleted or inserted.  A change that could stand at
several places is moved up and then down as far as it goes, so that it joins changes it runs
into, and in each block of changes the deleted lines come first.
-/

namespace Graft.Diff

/-- A run in the middle of others; those before it are in reverse order. -/
structure Focus where
  before : List Run
  current : Run
  after : List Run

namespace Focus

/-- Keeps lines in front of a run of kept lines, or as a run of their own. -/
def keepBefore (lines : List String) : List Run → List Run
  | ⟨.keep, kept⟩ :: rest => ⟨.keep, lines ++ kept⟩ :: rest
  | runs => ⟨.keep, lines⟩ :: runs

/-- Keeps lines behind a run of kept lines, or as a run of their own. -/
def keepAfter (lines : List String) : List Run → List Run
  | ⟨.keep, kept⟩ :: rest => ⟨.keep, kept ++ lines⟩ :: rest
  | runs => ⟨.keep, lines⟩ :: runs

/-- Moves a change up over lines it could stand before as well. -/
def moveUp : Nat → Focus → Focus
  | 0, f => f
  | fuel + 1, f =>
    match f.before with
    | [] => f
    | prev :: before =>
      if prev.tag = f.current.tag then
        moveUp fuel ⟨before, { prev with lines := prev.lines ++ f.current.lines }, f.after⟩
      else if prev.tag ≠ .keep then moveUp fuel ⟨before, f.current, prev :: f.after⟩
      else
        let shared := commonEnd prev.lines f.current.lines
        if shared = 0 then f
        else
          let kept := prev.lines.length - shared
          let rest := f.current.lines.length - shared
          let lines := prev.lines.drop kept ++ f.current.lines.take rest
          let after := keepBefore (f.current.lines.drop rest) f.after
          moveUp fuel ⟨run .keep (prev.lines.take kept) ++ before,
            { f.current with lines }, after⟩

/-- Moves a change down over lines it could stand behind as well. -/
def moveDown : Nat → Focus → Focus
  | 0, f => f
  | fuel + 1, f =>
    match f.after with
    | [] => f
    | next :: after =>
      if next.tag = f.current.tag then
        moveDown fuel ⟨f.before, { next with lines := f.current.lines ++ next.lines }, after⟩
      else if next.tag ≠ .keep then moveDown fuel ⟨next :: f.before, f.current, after⟩
      else
        let shared := commonStart next.lines f.current.lines
        if shared = 0 then f
        else
          let lines := f.current.lines.drop shared ++ next.lines.take shared
          let before := keepAfter (f.current.lines.take shared) f.before
          moveDown fuel ⟨before, { f.current with lines },
            run .keep (next.lines.drop shared) ++ after⟩

end Focus

/-- Moves all changes of one tag. -/
def settle (tag : Tag) (moves : Nat) : Nat → List Run → List Run → List Run
  | 0, before, after => before.reverse ++ after
  | _, before, [] => before.reverse
  | fuel + 1, before, r :: after =>
    if r.tag = tag then
      let f := Focus.moveDown moves (Focus.moveUp moves ⟨before, r, after⟩)
      settle tag moves fuel (f.current :: f.before) f.after
    else settle tag moves fuel (r :: before) after

/-- Puts the deleted lines of each block of changes before the inserted ones. -/
def grouped (deleted inserted : List String) : List Run → List Run
  | [] => run .delete deleted ++ run .insert inserted
  | ⟨.delete, lines⟩ :: rest => grouped (deleted ++ lines) inserted rest
  | ⟨.insert, lines⟩ :: rest => grouped deleted (inserted ++ lines) rest
  | ⟨.keep, lines⟩ :: rest =>
    run .delete deleted ++ run .insert inserted ++ ⟨.keep, lines⟩ :: grouped [] [] rest

/-- The runs of the difference between two lists of lines. -/
def runs (old new : List String) : List Run :=
  let size := old.length + new.length
  let edits := editRuns (size + 1) old new
  let fuel := 4 * size + 16
  grouped [] [] (settle .insert fuel fuel [] (settle .delete fuel fuel [] edits))

/-- Cuts a text behind each line end: a line feed, a carriage return, or both. -/
def linesFrom (line : List Char) : List Char → List String
  | [] => if line.isEmpty then [] else [String.ofList line.reverse]
  | '\r' :: '\n' :: cs => String.ofList ('\n' :: '\r' :: line).reverse :: linesFrom [] cs
  | c :: cs =>
    if c = '\n' || c = '\r' then String.ofList (c :: line).reverse :: linesFrom [] cs
    else linesFrom (c :: line) cs

def splitLines (text : String) : List String := linesFrom [] text.toList

def Tag.mark : Tag → String
  | keep => " "
  | delete => "-"
  | insert => "+"

/-- A line of the difference.  One without a line end of its own is followed by an empty line. -/
def lineText (tag : Tag) (line : String) : String :=
  let ended := line.toList.getLast?.any fun c => c = '\n' || c = '\r'
  tag.mark ++ line ++ if ended then "" else "\n\n"

/-- The whole difference between two texts as text. -/
def render (old new : String) : String :=
  String.join ((runs (splitLines old) (splitLines new)).flatMap fun r =>
    r.lines.map (lineText r.tag))

end Graft.Diff
