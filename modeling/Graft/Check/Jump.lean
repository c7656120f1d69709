import Graft.Grammar.Program

/-!
# Illegal jumps

A `return` belongs in a function, a `break` in a loop or a `switch`, a `continue` in a loop, and
a label must be that of an enclosing statement.  The body of a function starts afresh.  One walk
over the tree keeps account of what encloses the node at hand: it adds to the account when it
enters a node and takes that back when it leaves it.  Each illegal jump is reported once, in the
order of the source, at the end of its keyword.
-/

namespace Graft

/-- A problem of a source text: byte offset, and line and byte column from 1. -/
structure Diagnostic where
  index : Nat
  line : Nat
  column : Nat
  description : String
deriving DecidableEq, Repr, Inhabited

def SyntaxError.toDiagnostic (e : SyntaxError) : Diagnostic :=
  ⟨e.index, e.line, e.column, e.description⟩

/-- What encloses the node at hand, up to the nearest function. -/
structure JumpContext where
  inFunction : Bool := false
  loopDepth : Nat := 0
  switchDepth : Nat := 0
  /-- The innermost label first. -/
  labels : List String := []
deriving DecidableEq, Repr, Inhabited

inductive JumpError where
  | illegalReturn
  | illegalBreak
  | illegalContinue
  | undefinedLabel (name : String)
deriving DecidableEq, Repr, Inhabited

def JumpError.message : JumpError → String
  | illegalReturn => "Illegal return statement"
  | illegalBreak => "Illegal break statement"
  | illegalContinue => "Illegal continue statement"
  | undefinedLabel name => s!"Undefined label '{name}'"

/-- The name of the label that a node holds. -/
def Node.label? (n : Node) : Option String := (n.child? .label).bind Node.name?

namespace JumpContext

/-- What encloses the children of a node. -/
def enter (context : JumpContext) (n : Node) : JumpContext :=
  if n.kind.isFunction then { inFunction := true }
  else if n.kind.isLoop then { context with loopDepth := context.loopDepth + 1 }
  else if n.kind = .switchStatement then { context with switchDepth := context.switchDepth + 1 }
  else if n.kind = .labeledStatement then
    { context with labels := n.label?.getD "" :: context.labels }
  else context

/-- A count less one, unless it is used up. -/
def countDown? : Nat → Option Nat
  | 0 => none
  | count + 1 => some count

/-- What encloses the node behind this one, given what enclosed this one and what is left behind
its children.  A function puts back what it found; every other node takes back only what it has
added, which fails if a count is used up. -/
def leave? (found left : JumpContext) (n : Node) : Option JumpContext :=
  if n.kind.isFunction then some found
  else if n.kind.isLoop then
    (countDown? left.loopDepth).map fun depth => { left with loopDepth := depth }
  else if n.kind = .switchStatement then
    (countDown? left.switchDepth).map fun depth => { left with switchDepth := depth }
  else if n.kind = .labeledStatement then some { left with labels := left.labels.tail }
  else some left

/-- A label that no enclosing statement has comes before all other problems. -/
def jumpError? (context : JumpContext) (n : Node) : Option JumpError :=
  match n.kind with
  | .returnStatement => if context.inFunction then none else some .illegalReturn
  | .breakStatement =>
    match n.label? with
    | some name => if name ∈ context.labels then none else some (.undefinedLabel name)
    | none =>
      if context.loopDepth = 0 ∧ context.switchDepth = 0 then some .illegalBreak else none
  | .continueStatement =>
    match n.label? with
    | some name =>
      if name ∉ context.labels then some (.undefinedLabel name)
      else if context.loopDepth = 0 then some .illegalContinue else none
    | none => if context.loopDepth = 0 then some .illegalContinue else none
  | _ => none

end JumpContext

/-- The word that starts a jump. -/
def Kind.jumpWord : Kind → String
  | .returnStatement => "return"
  | .breakStatement => "break"
  | .continueStatement => "continue"
  | _ => ""

/-- A problem of a jump is reported right after its word. -/
def JumpError.toDiagnostic (error : JumpError) (n : Node) : Diagnostic :=
  let length := n.kind.jumpWord.length
  ⟨n.span.start + length, n.span.line, n.span.column + length + 1, error.message⟩

/-- The children of a `break` or a `continue` hold no jumps. -/
def Kind.endsJumpSearch (kind : Kind) : Bool :=
  kind == .breakStatement || kind == .continueStatement

/-- A walk over a tree: what encloses the node at hand, and the problems so far. -/
structure JumpScan where
  context : JumpContext := {}
  found : List Diagnostic := []
deriving DecidableEq, Repr, Inhabited

/-- Adds the problem of a node, if it is an illegal jump here. -/
def JumpScan.report (scan : JumpScan) (n : Node) : JumpScan :=
  match scan.context.jumpError? n with
  | some error => { scan with found := scan.found ++ [error.toDiagnostic n] }
  | none => scan

mutual

/-- The walk over one node and what is below it. -/
def Node.scanJumps (scan : JumpScan) : Node → Option JumpScan
  | .mk kind span slots => do
    let n : Node := .mk kind span slots
    let reported := scan.report n
    if kind.endsJumpSearch then return reported
    let below ← scanJumpsInSlots ⟨scan.context.enter n, reported.found⟩ slots
    let context ← scan.context.leave? below.context n
    return ⟨context, below.found⟩
termination_by structural n => n

def Slot.scanJumps (scan : JumpScan) : Slot → Option JumpScan
  | .node n => n.scanJumps scan
  | .list ns => scanJumpsInNodes scan ns
  | .absent => some scan
  | .scalar _ => some scan
termination_by structural s => s

def scanJumpsInSlots (scan : JumpScan) : List (Field × Slot) → Option JumpScan
  | [] => some scan
  | (_, slot) :: rest => do scanJumpsInSlots (← slot.scanJumps scan) rest
termination_by structural ss => ss

def scanJumpsInNodes (scan : JumpScan) : List Node → Option JumpScan
  | [] => some scan
  | n :: rest => do scanJumpsInNodes (← n.scanJumps scan) rest
termination_by structural ns => ns

end

/-- The illegal jumps of a tree that nothing encloses. -/
def Node.jumpDiagnostics (n : Node) : List Diagnostic :=
  ((n.scanJumps {}).map JumpScan.found).getD []

/-- The syntax error of a source text, or else its illegal jumps. -/
def diagnose (source : String) : List Diagnostic :=
  match parse source with
  | .ok program => program.jumpDiagnostics
  | .error e => [e.toDiagnostic]

end Graft
