import Graft.Grammar.Literal

/-!
# Markup elements

Elements written in tags keep their source text.  Their attributes and children are read only to
find where an element ends; the name in a closing tag need not agree with the opening one.
-/

namespace Graft.Grammar

def isElementNameChar (c : Char) : Bool := isNameChar c || c == '-'

/-- A name of a tag or attribute, in which dashes may stand. -/
def elementName : Parser Unit := do
  let _ ← start
  let _ ← lexeme nameLength?
  let cur ← get
  set (cur.advance (cur.rest.takeWhile isElementNameChar).length)

/-- A name with a dotted path or a namespace. -/
def tagName : Parser Unit := do
  elementName
  if ← hasMark ":" then elementName
  else
    let _ ← whileMore (fun cur => cur.nextMark == ".") do
      mark "."
      elementName

/-- Braces around expressions, a spread or nothing. -/
def embedded (g : Productions) : Parser Unit := do
  mark "\x7b"
  let next := (← get).nextMark
  if next == "..." then
    mark "..."
    let _ ← g.expression false
  else if next != "\x7d" then
    let _ ← g.expressions false
  mark "\x7d"

/-- The length of a quoted attribute, which may cross lines and knows no escapes. -/
def attributeTextLength? : List Char → Option Nat
  | quote :: rest =>
    if quote = '"' ∨ quote = '\'' then
      let inner := rest.takeWhile (· ≠ quote)
      if inner.length < rest.length then some (inner.length + 2) else none
    else none
  | [] => none

def tagAttribute (g : Productions) : Parser Unit := do
  let cur ← start
  if cur.nextMark == "\x7b" then embedded g
  else
    elementName
    if ← hasMark ":" then elementName
    if ← hasMark "=" then
      let value ← start
      match value.rest with
      | '\x7b' :: _ => embedded g
      | '<' :: _ =>
        let _ ← g.element
      | _ =>
        let _ ← lexeme attributeTextLength?

/-- The length of a character reference. -/
def referenceLength? : List Char → Option Nat
  | '&' :: rest =>
    let body := rest.takeWhile fun c => c.isAlphanum || c == '#'
    if body.isEmpty || (rest.drop body.length).head? != some ';' then none
    else some (body.length + 2)
  | _ => none

def isPlainText (c : Char) : Bool := !"<>\x7b\x7d&".toList.contains c

/-- The children of an element and its closing tag. -/
def children (g : Productions) : Nat → Parser Unit
  | 0 => unexpected
  | fuel + 1 => do
    let cur ← get
    match cur.rest with
    | '<' :: '/' :: _ =>
      set (cur.advance 2)
      if (← get).nextMark != ">" then tagName
      let stop ← start
      match stop.rest with
      | '>' :: _ => set (stop.advance 1)
      | _ => unexpected
    | '<' :: _ =>
      let _ ← g.element
      children g fuel
    | '\x7b' :: _ =>
      embedded g
      children g fuel
    | '&' :: _ =>
      let _ ← lexeme referenceLength?
      children g fuel
    | text =>
      match (text.takeWhile isPlainText).length with
      | 0 => unexpected
      | n =>
        set (cur.advance n)
        children g fuel

/-- An attribute may start here. -/
def startsAttribute (cur : Cursor) : Bool :=
  cur.nextMark == "\x7b" || cur.word?.isSome

def elementBody (g : Productions) : Parser Node := do
  let origin ← start
  match origin.rest with
  | '<' :: _ =>
    set (origin.advance 1)
    let inner ← start
    match inner.rest with
    | '>' :: _ =>
      set (inner.advance 1)
      children g (inner.rest.length + 1)
    | _ =>
      tagName
      let _ ← whileMore startsAttribute (tagAttribute g)
      let stop ← start
      match stop.rest with
      | '/' :: '>' :: _ => set (stop.advance 2)
      | '>' :: _ =>
        set (stop.advance 1)
        children g (stop.rest.length + 1)
      | _ => unexpected
    rawNode origin
  | _ => unexpected

end Graft.Grammar
