import Graft.Text.Quoted

/-!
# Print styles

What a printed text leaves open: the indentation, the quotes of strings, and a blank between the
word `function` and its parameters where the function has no name.
-/

namespace Graft

structure Style where
  indent : Nat := 2
  useTabs : Bool := false
  quotes : QuoteStyle := .single
  functionSpace : Bool := false
deriving DecidableEq, Repr, Inhabited

namespace Style

/-- The style in which an edited program is printed. -/
def edited : Style where
  indent := 4
  functionSpace := true

def indentationChars (style : Style) (level : Nat) : List Char :=
  if style.useTabs then List.replicate level '\t'
  else List.replicate (style.indent * level) ' '

/-- The blanks at the start of a line of some level. -/
def indentation (style : Style) (level : Nat) : String :=
  String.ofList (style.indentationChars level)

end Style
end Graft
