import Graft.Match.Region
import Graft.Match.Unify
import Graft.Rule.Basic

/-!
# Finding matches

A pattern is tried at every place of a tree in the order of the source.  An expression is tried
at every node of its kind, or at every expression if it is a wildcard itself, but never where a
name is declared.  Statements are tried at every position of every statement list, before the
statement there is searched; a single statement is also tried where exactly one statement stands.
-/

namespace Graft

structure Match where
  bindings : Bindings
  region : Region
  /-- The byte range of the source. -/
  range : Nat × Nat

def Match.under (step : Step) (m : Match) : Match := { m with region := m.region.under step }

/-- Where a node stands. -/
structure Site where
  parent : Node
  field : Field

/-- A name that stands here is declared or is part of a declaration, a label or an object. -/
def Site.declaresName (site : Site) : Bool :=
  match site.parent.kind, site.field with
  | .variableDeclarator, .id | .functionDeclaration, .id | .functionDeclaration, .params
  | .functionExpression, .id | .functionExpression, .params
  | .arrowFunctionExpression, .params | .catchClause, .param | .labeledStatement, .label
  | .breakStatement, .label | .continueStatement, .label => true
  | .property, .key => !site.parent.flag .computed
  | _, _ => false

def Site.holdsOneStatement (site : Site) : Bool :=
  site.parent.kind.hasStatementSlot site.field && !site.parent.kind.hasStatementList site.field

namespace Pattern

/-- A pattern is tried at this node as a whole. -/
def isEligible (p : Pattern) (site : Option Site) (n : Node) : Bool :=
  match p.fragment with
  | .expression root =>
    if site.any Site.declaresName then false
    else if (p.wildcards.valueName? root).isSome then n.kind.isExpression && n.kind != .raw
    else n.kind == root.kind
  | .statements body => body.length == 1 && site.any Site.holdsOneStatement

def fitNode? (p : Pattern) (n : Node) : Option Bindings := do
  let root ← p.fragment.nodes.head?
  let (fits, bindings) := root.unify p.wildcards n []
  if fits then some bindings else none

/-- The match at a node, seen from that node. -/
def matchNode? (p : Pattern) (site : Option Site) (n : Node) : Option Match :=
  if p.isEligible site n then
    (p.fitNode? n).map fun bindings => ⟨bindings, .node [], n.span.start, n.span.stop⟩
  else none

/-- The match of a run that starts a list, seen from the node that holds the list.  The list
starts at the given position. -/
def matchRun? (p : Pattern) (field : Field) (start : Nat) (items : List Node) : Option Match :=
  match p.fragment with
  | .expression _ => none
  | .statements body =>
    let run := items.take body.length
    let (fits, bindings) := unifySequence p.wildcards body run
    match fits, run.head?, run.getLast? with
    | true, some first, some last =>
      some ⟨bindings, .run [] field start run.length, first.span.start, last.span.stop⟩
    | _, _, _ => none

end Pattern

mutual

/-- The matches below a node, seen from that node. -/
def Node.findMatches (p : Pattern) (site : Option Site) : Node → List Match
  | .mk kind span slots =>
    let n : Node := .mk kind span slots
    (p.matchNode? site n).toList ++ findMatchesInSlots p n slots
termination_by structural n => n

def Slot.findMatches (p : Pattern) (site : Site) : Slot → List Match
  | .node n => (n.findMatches p (some site)).map (Match.under ⟨site.field, none⟩)
  | .list ns => findMatchesInNodes p site 0 ns
  | .absent => []
  | .scalar _ => []
termination_by structural s => s

def findMatchesInSlots (p : Pattern) (parent : Node) : List (Field × Slot) → List Match
  | [] => []
  | (field, slot) :: rest => slot.findMatches p ⟨parent, field⟩ ++ findMatchesInSlots p parent rest
termination_by structural ss => ss

def findMatchesInNodes (p : Pattern) (site : Site) (start : Nat) : List Node → List Match
  | [] => []
  | n :: rest =>
    let run :=
      if site.parent.kind.hasStatementList site.field then
        (p.matchRun? site.field start (n :: rest)).toList
      else []
    run ++ (n.findMatches p (some site)).map (Match.under ⟨site.field, some start⟩) ++
      findMatchesInNodes p site (start + 1) rest
termination_by structural ns => ns

end

/-- All matches of a pattern in a tree, overlapping ones included. -/
def Pattern.findAll (p : Pattern) (root : Node) : List Match := root.findMatches p none

/-- Keeps the matches that overlap neither the given regions nor an earlier match that is kept. -/
def selectFrom (kept : List Region) : List Match → List Match
  | [] => []
  | m :: ms =>
    if kept.any fun region => region.overlaps m.region then selectFrom kept ms
    else m :: selectFrom (m.region :: kept) ms

/-- Matches that do not overlap; of two that do, the earlier is kept. -/
def selectDisjoint (ms : List Match) : List Match := selectFrom [] ms

end Graft
