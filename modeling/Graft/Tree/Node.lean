import Graft.Number.Binary64
import Graft.Tree.Field

/-!
# Trees

A node has a kind, the place it was read from, and an ordered list of named slots.  A slot holds
one node, a list of nodes, a scalar, or nothing.  Trees are plain values: an edit builds a new
root around the parts it leaves alone.
-/

namespace Graft

/-- Where a node was read from: byte offsets, and the line (from 1) and byte column (from 0) of
its first byte. -/
structure Span where
  start : Nat := 0
  stop : Nat := 0
  line : Nat := 0
  column : Nat := 0
deriving DecidableEq, Repr, Inhabited

inductive Scalar where
  /-- A name, an operator, a declaration keyword or source text. -/
  | text (text : String)
  /-- The decoded value of a string literal. -/
  | str (value : String)
  /-- A numeric literal as written, with its value where it has one. -/
  | num (value : Option Binary64) (raw : String)
  | bool (value : Bool)
  | null
  /-- A regular expression literal as written. -/
  | regex (raw : String)
deriving DecidableEq, Repr, Inhabited

namespace Scalar

/-- Two numbers that both have a value are compared by value, otherwise by their text. -/
def same : Scalar → Scalar → Bool
  | text a, text b => a == b
  | str a, str b => a == b
  | num (some a) _, num (some b) _ => a.numericEq b
  | num _ a, num _ b => a == b
  | bool a, bool b => a == b
  | null, null => true
  | regex a, regex b => a == b
  | _, _ => false

def content : Scalar → String
  | text s | str s | regex s => s
  | num _ raw => raw
  | bool true => "true"
  | bool false => "false"
  | null => "null"

end Scalar

mutual

inductive Node where
  | mk (kind : Kind) (span : Span) (slots : List (Field × Slot))

inductive Slot where
  | node (node : Node)
  | list (nodes : List Node)
  | absent
  | scalar (scalar : Scalar)

end

instance : Inhabited Slot := ⟨.absent⟩
instance : Inhabited Node := ⟨.mk .raw {} []⟩

namespace Slot

def text (s : String) : Slot := .scalar (.text s)

def flag (b : Bool) : Slot := .scalar (.bool b)

def ofOption : Option Node → Slot
  | some n => .node n
  | none => .absent

/-- The child at a position: no index for a single node, an index into a list. -/
def child? : Slot → Option Nat → Option Node
  | node n, none => some n
  | list ns, some i => ns[i]?
  | _, _ => none

end Slot

namespace Node

def kind : Node → Kind
  | mk kind _ _ => kind

def span : Node → Span
  | mk _ span _ => span

def slots : Node → List (Field × Slot)
  | mk _ _ slots => slots

@[simp] theorem kind_mk (kind : Kind) (span : Span) (slots : List (Field × Slot)) :
    (mk kind span slots).kind = kind := rfl

@[simp] theorem span_mk (kind : Kind) (span : Span) (slots : List (Field × Slot)) :
    (mk kind span slots).span = span := rfl

@[simp] theorem slots_mk (kind : Kind) (span : Span) (slots : List (Field × Slot)) :
    (mk kind span slots).slots = slots := rfl

/-- The first slot of a field. -/
def slot? (n : Node) (field : Field) : Option Slot :=
  n.slots.lookup field

def child? (n : Node) (field : Field) : Option Node :=
  match n.slot? field with
  | some (.node c) => some c
  | _ => none

/-- The nodes of a list slot; none when there is no such list. -/
def list (n : Node) (field : Field) : List Node :=
  match n.slot? field with
  | some (.list ns) => ns
  | _ => []

def scalar? (n : Node) (field : Field) : Option Scalar :=
  match n.slot? field with
  | some (.scalar s) => some s
  | _ => none

def text? (n : Node) (field : Field) : Option String :=
  match n.scalar? field with
  | some (.text s) => some s
  | _ => none

/-- A missing flag counts as unset. -/
def flag (n : Node) (field : Field) : Bool :=
  match n.scalar? field with
  | some (.bool b) => b
  | _ => false

/-- The name of an identifier. -/
def name? (n : Node) : Option String :=
  if n.kind = .identifier then n.text? .name else none

def setSlot (field : Field) (slot : Slot) : List (Field × Slot) → List (Field × Slot)
  | [] => [(field, slot)]
  | (f, s) :: rest =>
    if f = field then (f, slot) :: rest else (f, s) :: setSlot field slot rest

/-- Puts a slot in place of the first one of its field, or after all others. -/
def set (n : Node) (field : Field) (slot : Slot) : Node :=
  mk n.kind n.span (setSlot field slot n.slots)

def identifier (name : String) (span : Span := {}) : Node :=
  mk .identifier span [(.name, .text name)]

def raw (text : String) (span : Span := {}) : Node :=
  mk .raw span [(.text, .text text)]

end Node
end Graft
