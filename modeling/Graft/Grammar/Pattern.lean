import Graft.Grammar.Expression

/-!
# Patterns

What may stand on the left of an assignment or in a list of parameters.  Destructuring patterns
keep their source text.
-/

namespace Graft.Grammar

/-- A variable or a member, as the target of an assignment. -/
def target (g : Productions) : Parser Node := do
  let first ← primary g false
  let whole ← suffixed g true false first
  if whole.form = .name ∨ whole.form = .member then return whole.node
  unexpected

/-- A pattern inside another one, perhaps with a default value. -/
def patternElement (g : Productions) : Parser Unit := do
  let _ ← g.pattern
  if ← hasMark "=" then
    let _ ← g.expression false

def arrayPattern (g : Productions) : Parser Node := do
  let origin ← start
  mark "["
  let _ ← whileMore (fun cur => cur.nextMark != "]") do
    if !(← hasMark ",") then
      patternElement g
      if (← get).nextMark != "]" then mark ","
  mark "]"
  rawNode origin

/-- A member of an object pattern: the rest, a key with a pattern, or a name, perhaps with a
default value. -/
def objectPatternMember (g : Productions) : Parser Unit := do
  let origin ← start
  if origin.nextMark == "..." then
    let _ ← g.pattern
  else
    let (key, computed) ← propertyKey g
    if ← hasMark ":" then patternElement g
    else
      match key.name? with
      | some name =>
        if computed || isReserved name then unexpected
        if ← hasMark "=" then
          let _ ← g.expression false
      | none => unexpected

def objectPattern (g : Productions) : Parser Node := do
  let origin ← start
  mark "\x7b"
  let _ ← whileMore (fun cur => cur.nextMark != "\x7d") do
    if !(← hasMark ",") then
      objectPatternMember g
      if (← get).nextMark != "\x7d" then mark ","
  mark "\x7d"
  rawNode origin

/-- A destructuring pattern or the name of a variable. -/
def binding (g : Productions) : Parser Node := do
  let next := (← get).nextMark
  if next == "[" then arrayPattern g
  else if next == "\x7b" then objectPattern g
  else variableName

def pattern (g : Productions) : Parser Node := do
  let origin ← start
  let assignable : Parser Node := do
    let next := (← get).nextMark
    if next == "[" then arrayPattern g
    else if next == "\x7b" then objectPattern g
    else target g
  if ← hasMark "..." then
    let inner ← assignable
    node origin .restElement [(.argument, .node inner)]
  else assignable

end Graft.Grammar
