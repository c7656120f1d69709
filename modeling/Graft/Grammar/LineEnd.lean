import Graft.Grammar.Lexeme

/-!
# Automatic semicolons

A statement may end without a written semicolon: at the end of the text, before a closing brace,
and at a line end unless the next line goes on with the statement.  The decision looks only at
the characters that follow.
-/

namespace Graft.Grammar

inductive GapMode where
  | blanks
  | lineComment
  | blockComment

/-- What a gap of blanks and comments says about a semicolon. -/
inductive Gap where
  /-- A slash that opens no comment. -/
  | refused
  /-- A block comment within one line. -/
  | sameLine
  | passed

/-- Reads over blanks and comments.  With `all` unset, reading stops behind the first block
comment that no slash follows. -/
def readGap (all : Bool) : GapMode → Bool → List Char → Gap × List Char
  | _, _, [] => (.passed, [])
  | .blanks, crossed, c :: rest =>
    if Text.isPlainBlank c then readGap all .blanks crossed rest
    else if c = '/' then
      match rest with
      | '/' :: inner => readGap all .lineComment crossed inner
      | '*' :: inner => readGap all .blockComment crossed inner
      | _ => (.refused, rest)
    else (.passed, c :: rest)
  | .lineComment, crossed, c :: rest =>
    if c = '\n' then readGap all .blanks crossed rest
    else if Text.isLineEnd c then (.passed, c :: rest)
    else readGap all .lineComment crossed rest
  | .blockComment, crossed, '*' :: '/' :: rest =>
    if rest.head? ≠ some '/' && !all then
      (if crossed then .passed else .sameLine, rest)
    else readGap all .blanks crossed rest
  | .blockComment, crossed, c :: rest =>
    readGap all .blockComment (crossed || Text.isLineEnd c) rest

/-- Characters at the start of a line that go on with the statement of the line before. -/
def continuingChars : List Char := "`,:;*%><=[(?^|&/".toList

/-- The text starts with `in` or `instanceof` and no letter follows. -/
def startsRelation (text : List Char) : Bool :=
  let ends (length : Nat) : Bool :=
    match (text.drop length).head? with
    | some c => !c.isAlpha
    | none => true
  (startsWith text "in" && ends 2) || (startsWith text "instanceof" && ends 10)

/-- The start of a line leaves the line before complete. -/
def startsAfresh (text : List Char) : Bool :=
  match text with
  | [] => true
  | c :: rest =>
    if continuingChars.contains c then false
    else if c = '.' then (rest.head?.map Char.isDigit).getD false
    else if c = '+' then rest.head? == some '+'
    else if c = '-' then rest.head? == some '-'
    else if c = '!' then rest.head? != some '='
    else !startsRelation text

/-- A statement may end in front of the text.  `afterOperand` says that a binary operator might
also follow; then a comment that crosses a line does not end the statement by itself. -/
def endsBefore (afterOperand : Bool) : Nat → List Char → Bool
  | 0, _ => false
  | _, [] => true
  | fuel + 1, c :: rest =>
    let look (text : List Char) : Bool :=
      match text with
      | [] => false
      | d :: after =>
        if d = '\x7d' then true
        else if Text.isLineEnd d then
          match readGap true .blanks false after with
          | (.refused, _) => false
          | (_, next) => startsAfresh next
        else if Text.isPlainBlank d then endsBefore afterOperand fuel after
        else false
    if c = '/' then
      match readGap false .blanks false (c :: rest) with
      | (.refused, _) => false
      | (.passed, next) =>
        if !afterOperand && next.head? != some ',' && next.head? != some '=' then true
        else look next
      | (.sameLine, next) => look next
    else look (c :: rest)

namespace Cursor

/-- Looks for an automatic semicolon here and behind each comment that follows. -/
def findEnd (afterOperand : Bool) : Nat → Cursor → Option Cursor
  | 0, _ => none
  | fuel + 1, cur =>
    if endsBefore afterOperand (cur.rest.length + 1) cur.rest then some cur
    else
      let next := cur.advance (cur.rest.takeWhile Text.isBlank).length
      match commentLength? next.rest with
      | some n => findEnd afterOperand fuel (next.advance n)
      | none => none

/-- The place of an automatic semicolon, if the statement may end here.  Comments up to that
place belong to the statement. -/
def automaticEnd? (cur : Cursor) (afterOperand : Bool) : Option Cursor :=
  findEnd afterOperand (cur.rest.length + 1) cur

end Cursor
end Graft.Grammar
