import Graft.Print.Printer
import Graft.Tree.Same

/-!
# Bindings

What the wildcards of a pattern stand for in a match: one node, or the rest of a list.
-/

namespace Graft

inductive Binding where
  | node (node : Node)
  | rest (nodes : List Node)

namespace Binding

def node? : Binding → Option Node
  | node n => some n
  | rest _ => none

def nodes : Binding → List Node
  | node n => [n]
  | rest ns => ns

def same : Binding → Binding → Bool
  | node a, node b => a.sameStructure b
  | rest as, rest bs => sameSequence as bs
  | _, _ => false

def kindName : Binding → String
  | node n => n.kind.name
  | rest _ => "Rest"

def name? (b : Binding) : Option String := b.node?.bind Node.name?

/-- The content of a literal. -/
def value? (b : Binding) : Option String := do
  let n ← b.node?
  if n.kind = .literal then (n.scalar? .value).map Scalar.content else none

/-- The number of elements of the rest of a list. -/
def count? : Binding → Option Nat
  | node _ => none
  | rest ns => some ns.length

/-- The printed nodes. -/
def source (b : Binding) : String := ", ".intercalate (b.nodes.map Node.print)

end Binding

/-- Bindings by name, in the order they were made. -/
abbrev Bindings := List (String × Binding)

namespace Bindings

def get? (bs : Bindings) (name : String) : Option Binding := bs.lookup name

/-- Binds a name once; a second binding must have the same structure as the first. -/
def bind (bs : Bindings) (name : String) (b : Binding) : Bool × Bindings :=
  match bs.get? name with
  | some earlier => (earlier.same b, bs)
  | none => (true, bs ++ [(name, b)])

end Bindings
end Graft
