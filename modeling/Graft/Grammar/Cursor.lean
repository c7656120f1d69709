import Graft.Text.Blank
import Graft.Tree.Node

/-!
# Cursors

A cursor is a place in a source text together with the text that follows it.  Lexical classes are
given by the number of characters they cover at the front of a text; a cursor moves over them.
-/

namespace Graft.Grammar

/-- A place in the source: byte offset, line from 1, byte column from 0. -/
structure Place where
  offset : Nat := 0
  line : Nat := 1
  column : Nat := 0
deriving DecidableEq, Repr, Inhabited

/-- Lines end at line feeds only. -/
def Place.after (p : Place) (c : Char) : Place :=
  if c = '\n' then ⟨p.offset + 1, p.line + 1, 0⟩
  else ⟨p.offset + c.utf8Size, p.line, p.column + c.utf8Size⟩

structure Cursor where
  place : Place
  rest : List Char
deriving Repr, Inhabited

namespace Cursor

def ofText (source : String) : Cursor := ⟨{}, source.toList⟩

def offset (cur : Cursor) : Nat := cur.place.offset

def atEnd (cur : Cursor) : Bool := cur.rest.isEmpty

def moveOver : Nat → Place → List Char → Cursor
  | n + 1, place, c :: rest => moveOver n (place.after c) rest
  | _, place, rest => ⟨place, rest⟩

/-- Moves over `count` characters, or to the end of the text. -/
def advance (cur : Cursor) (count : Nat) : Cursor := moveOver count cur.place cur.rest

/-- The text between two cursors of the same source. -/
def textTo (start stop : Cursor) : String :=
  String.ofList (start.rest.take (start.rest.length - stop.rest.length))

/-- The span from one cursor to another. -/
def spanTo (start stop : Cursor) : Span :=
  ⟨start.offset, stop.offset, start.place.line, start.place.column⟩

end Cursor

/-- What the text between tokens is made of. -/
inductive TriviaMode where
  | blanks
  | lineComment
  | blockComment (opened : Cursor)

def startsWith (text : List Char) (start : String) : Bool := start.toList.isPrefixOf text

/-- Skips blanks and comments.  With `markup`, a line may also be commented out by `<!--` or
`-->`.  A block comment that never closes is left unread. -/
def skipFrom (markup : Bool) : TriviaMode → Place → List Char → Cursor
  | .blockComment opened, _, [] => opened
  | _, place, [] => ⟨place, []⟩
  | .blanks, place, c :: rest =>
    if Text.isBlank c then skipFrom markup .blanks (place.after c) rest
    else if startsWith (c :: rest) "//" then skipFrom markup .lineComment (place.after c) rest
    else if startsWith (c :: rest) "/*" then
      match rest with
      | star :: inner =>
        skipFrom markup (.blockComment ⟨place, c :: rest⟩) ((place.after c).after star) inner
      | [] => ⟨place, c :: rest⟩
    else if markup && (startsWith (c :: rest) "<!--" || startsWith (c :: rest) "-->") then
      skipFrom markup .lineComment (place.after c) rest
    else ⟨place, c :: rest⟩
  | .lineComment, place, c :: rest =>
    if Text.isLineEnd c || c == '\r' then skipFrom markup .blanks (place.after c) rest
    else skipFrom markup .lineComment (place.after c) rest
  | .blockComment _, place, '*' :: '/' :: rest =>
    skipFrom markup .blanks ((place.after '*').after '/') rest
  | .blockComment opened, place, c :: rest =>
    skipFrom markup (.blockComment opened) (place.after c) rest

namespace Cursor

def skip (cur : Cursor) : Cursor := skipFrom false .blanks cur.place cur.rest

/-- Skips to the start of an operand or a statement. -/
def skipToOperand (cur : Cursor) : Cursor := skipFrom true .blanks cur.place cur.rest

end Cursor

/-- The number of characters of a comment at the front of a text. -/
def blockCommentLength : Nat → List Char → Option Nat
  | _, [] => none
  | n, '*' :: '/' :: _ => some (n + 2)
  | n, _ :: rest => blockCommentLength (n + 1) rest

def commentLength? : List Char → Option Nat
  | '/' :: '/' :: rest =>
    some (2 + (rest.takeWhile fun c => !Text.isLineEnd c && c != '\r').length)
  | '/' :: '*' :: rest => blockCommentLength 2 rest
  | _ => none

end Graft.Grammar
