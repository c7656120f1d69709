import Graft.Grammar.Parser
import Graft.Number.Numeral
import Graft.Text.Quoted

/-!
# Literals

Numbers, strings, regular expressions and template texts.  A template keeps its source text; the
expressions inside it are read only to find its end.
-/

namespace Graft.Grammar

def literal (origin : Cursor) (value : Scalar) : Parser Node :=
  node origin .literal [(.value, .scalar value)]

def numberLiteral : Parser Node := do
  let origin ← start
  let raw ← lexeme numberLength?
  literal origin (.num (Numeral.value? raw) raw)

def stringLiteral : Parser Node := do
  let origin ← start
  let raw ← lexeme stringLength?
  literal origin (.str (Text.Quoted.decode raw))

def regexLiteral : Parser Node := do
  let origin ← start
  let raw ← lexeme regexLength?
  literal origin (.regex raw)

/-- The characters of a template up to the next escape, substitution or end. -/
def templateRun (text : List Char) : Nat :=
  match text with
  | [] => 0
  | '\x60' :: _ => 0
  | '\\' :: _ => 0
  | '$' :: '\x7b' :: _ => 0
  | _ :: rest => templateRun rest + 1

/-- The rest of a template after its opening mark. -/
def templateTail (g : Productions) : Nat → Parser Unit
  | 0 => unexpected
  | fuel + 1 => do
    let cur ← get
    let next := cur.advance (templateRun cur.rest)
    match next.rest with
    | '\x60' :: _ => set (next.advance 1)
    | '\\' :: tail =>
      match escapeTailLength? tail with
      | some n =>
        set (next.advance (n + 1))
        templateTail g fuel
      | none => unexpected
    | '$' :: _ =>
      set (next.advance 2)
      let _ ← g.expressions false
      mark "\x7d"
      templateTail g fuel
    | _ => unexpected

/-- A template, of which only the extent matters. -/
def template (g : Productions) : Parser Unit := do
  mark "`"
  templateTail g ((← get).rest.length + 1)

end Graft.Grammar
