import Graft.Text.Position

/-!
# Splitting a rule

A rule is written `pattern -> template`.  The first `->` that stands in code divides it: quoted
text, template strings and comments are passed over.  The search goes over the bytes of the text,
in which each of the characters that matter is one byte.
-/

namespace Graft.Rule

def isQuote (b : UInt8) : Bool :=
  b = '\''.toUInt8 || b = '"'.toUInt8 || b = '\x60'.toUInt8

/-- How many bytes belong to a quoted text, counted behind its opening quote.  A backslash takes
the next byte along. -/
def quotedExtent (quote : UInt8) : List UInt8 → Nat
  | [] => 0
  | b :: bs =>
    if b = quote then 1
    else if b = '\\'.toUInt8 then
      match bs with
      | [] => 1
      | _ :: bs => 2 + quotedExtent quote bs
    else 1 + quotedExtent quote bs

def lineCommentExtent : List UInt8 → Nat
  | [] => 0
  | b :: bs => if b = '\n'.toUInt8 then 0 else 1 + lineCommentExtent bs

def blockCommentExtent : List UInt8 → Nat
  | [] => 0
  | b :: bs =>
    if b = '*'.toUInt8 ∧ bs.head? = some '/'.toUInt8 then 2 else 1 + blockCommentExtent bs

/-- How many bytes behind a slash belong to the comment that it opens. -/
def commentExtent : List UInt8 → Nat
  | [] => 0
  | b :: bs =>
    if b = '/'.toUInt8 then 1 + lineCommentExtent bs
    else if b = '*'.toUInt8 then 1 + blockCommentExtent bs
    else 0

/-- How many of the bytes behind `b` belong to the quoted text or comment that `b` opens. -/
def extentAfter (b : UInt8) (bs : List UInt8) : Nat :=
  if isQuote b then quotedExtent b bs
  else if b = '/'.toUInt8 then commentExtent bs
  else 0

/-- Looks for the delimiter behind the next `skip` bytes. -/
def delimiterFrom : Nat → List UInt8 → Option Nat
  | _, [] => none
  | skip + 1, _ :: bs => (delimiterFrom skip bs).map (· + 1)
  | 0, b :: bs =>
    if b = '-'.toUInt8 ∧ bs.head? = some '>'.toUInt8 then some 0
    else (delimiterFrom (extentAfter b bs) bs).map (· + 1)

/-- The byte offset of the delimiter. -/
def delimiter? (text : String) : Option Nat := delimiterFrom 0 (Text.bytes text.toList)

/-- The two halves of a rule, cut out in front of the delimiter and behind it. -/
def split? (text : String) : Option (String × String) := do
  let offset ← delimiter? text
  let (left, _) ← Text.cut? offset text.toList
  let (_, right) ← Text.cut? (offset + 2) text.toList
  return (String.ofList left, String.ofList right)

end Graft.Rule
