import Graft.Print.Style
import Graft.Text.Letter

/-!
# Laid out text

A document is a list of texts and line breaks.  A break carries the level at which the next line
starts; only rendering turns levels into blanks.
-/

namespace Graft

inductive Piece where
  | text (text : String)
  | line (level : Nat)
deriving DecidableEq, Repr, Inhabited

abbrev Doc := List Piece

namespace Doc

def ofText (s : String) : Doc := [.text s]

/-- A break at the level of the surrounding text. -/
def newline : Doc := [.line 0]

def nestPiece : Piece → Piece
  | .text s => .text s
  | .line level => .line (level + 1)

/-- Moves the lines of a document one level deeper. -/
def nest (doc : Doc) : Doc := doc.map nestPiece

def joinWith (separator : Doc) : List Doc → Doc
  | [] => []
  | [doc] => doc
  | doc :: rest => doc ++ separator ++ joinWith separator rest

/-- Documents separated by commas. -/
def commaList (docs : List Doc) : Doc := joinWith (ofText ", ") docs

def parenthesized (doc : Doc) : Doc := ofText "(" ++ doc ++ ofText ")"

/-- The characters before the first line break. -/
def lead : Doc → List Char
  | [] => []
  | .text s :: rest => s.toList ++ lead rest
  | .line _ :: _ => []

def startsWithText (doc : Doc) (text : String) : Bool := text.toList.isPrefixOf doc.lead

/-- The document starts with a word, not with a longer one that the word starts. -/
def startsWithWord (doc : Doc) (word : String) : Bool :=
  doc.startsWithText word &&
    match (doc.lead.drop word.length).head? with
    | some c => !(Text.isAlphanumeric c || c == '_' || c == '$')
    | none => true

def renderPiece (style : Style) : Piece → String
  | .text s => s
  | .line level => "\n" ++ style.indentation level

def render (style : Style) (doc : Doc) : String :=
  String.join (doc.map (renderPiece style))

end Doc
end Graft
