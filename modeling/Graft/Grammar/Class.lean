import Graft.Grammar.Object

/-!
# Classes

A class keeps its source text, so its members are read only to find where it ends.
-/

namespace Graft.Grammar

/-- A decorator: a dotted name, perhaps applied, or an expression in parentheses. -/
def decorator (g : Productions) : Parser Unit := do
  mark "@"
  if (← get).nextMark == "(" then
    let _ ← g.parenthesized
  else
    let _ ← variableName
    let _ ← whileMore (fun cur => cur.nextMark == ".") do
      mark "."
      anyName
    if (← get).nextMark == "(" then
      let _ ← arguments g

def decorators (g : Productions) : Parser Unit := do
  let _ ← whileMore (fun cur => cur.nextMark == "@") (decorator g)

/-- A method, a field, a block of static initialisation or a stray semicolon. -/
def classMember (g : Productions) : Parser Unit := do
  if ← hasMark ";" then return
  decorators g
  match (← get).word? with
  | some ("static", next) =>
    if next.nextMark == "\x7b" then
      set next
      let _ ← g.block
      return
  | _ => pure ()
  let head ← methodHead
  let _ ← propertyKey g
  if (← get).nextMark == "(" then
    let _ ← parameters g
    let _ ← g.block
  else if head.async || head.generator || head.accessor != "init" then unexpected
  else if ← hasMark "=" then
    let _ ← g.expression true
    semicolon true
  else semicolon false

def classBody (g : Productions) : Parser Unit := do
  mark "\x7b"
  let _ ← whileMore (fun cur => cur.nextMark != "\x7d") do
    let cur ← get
    if cur.skip.atEnd then throw (.openClass cur.place)
    classMember g
  mark "\x7d"

/-- The rest of a class after its decorators. -/
def classTail (g : Productions) : Parser Unit := do
  keyword "class"
  match (← get).word? with
  | some (word, next) => if !isReserved word then set next
  | none => pure ()
  if ← hasKeyword "extends" then
    let _ ← g.expression false
  classBody g

end Graft.Grammar
