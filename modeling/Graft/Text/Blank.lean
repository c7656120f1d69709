/-!
# Blank characters

Three classes of blank characters.  `isWhite` is the white space property of Unicode, by which
texts are trimmed.  `isBlank` are the characters that may stand between the tokens of a program,
and `isPlainBlank` those of them that the search for a line end looks through.
-/

namespace Graft.Text

/-- Ranges of code points with the white space property. -/
def whiteRanges : List (Nat × Nat) :=
  [(0x09, 0x0d), (0x20, 0x20), (0x85, 0x85), (0xa0, 0xa0), (0x1680, 0x1680), (0x2000, 0x200a),
    (0x2028, 0x2029), (0x202f, 0x202f), (0x205f, 0x205f), (0x3000, 0x3000)]

def inRanges (ranges : List (Nat × Nat)) (c : Char) : Bool :=
  ranges.any fun (low, high) => low ≤ c.toNat && c.toNat ≤ high

def isWhite (c : Char) : Bool := inRanges whiteRanges c

/-- White space without the next-line control, with the zero width space, the word joiner and
the byte order mark. -/
def blankRanges : List (Nat × Nat) :=
  [(0x09, 0x0d), (0x20, 0x20), (0xa0, 0xa0), (0x1680, 0x1680), (0x2000, 0x200b),
    (0x2028, 0x2029), (0x202f, 0x202f), (0x205f, 0x2060), (0x3000, 0x3000), (0xfeff, 0xfeff)]

def isBlank (c : Char) : Bool := inRanges blankRanges c

def isPlainBlank (c : Char) : Bool :=
  c == ' ' || ('\t' ≤ c && c ≤ '\r')

/-- Line feed, line separator and paragraph separator. -/
def isLineEnd (c : Char) : Bool :=
  c == '\n' || c == '\u2028' || c == '\u2029'

def trimStart (cs : List Char) : List Char := cs.dropWhile isWhite

def trimEnd (cs : List Char) : List Char := (cs.reverse.dropWhile isWhite).reverse

/-- The text without white space at either end. -/
def trim (s : String) : String := String.ofList (trimEnd (trimStart s.toList))

end Graft.Text
