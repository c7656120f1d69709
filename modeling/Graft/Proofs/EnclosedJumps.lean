import Graft.Check.Jump
import Graft.Proofs.Occurrences

/-!
# Jumps and what encloses them

Whether a jump is illegal depends on the nodes above it.  The search for illegal jumps does not
look at them: it carries one account of loops, switches and labels through the tree, adds to it on
the way into a node and takes back on the way out.  The account is the same behind a subtree as in
front of it, and at every node it says what the nodes above say, so the search finds the illegal
jumps in the order of the source and nothing else.
-/

namespace Graft

/-! ## The rules -/

namespace Occurrence

/-- The nodes above that are below the nearest enclosing function. -/
def scope (o : Occurrence) : List Node := o.ancestors.takeWhile fun a => !a.kind.isFunction

def InFunction (o : Occurrence) : Prop := ∃ a ∈ o.ancestors, a.kind.isFunction = true

def InLoop (o : Occurrence) : Prop := ∃ a ∈ o.scope, a.kind.isLoop = true

def InSwitch (o : Occurrence) : Prop := ∃ a ∈ o.scope, a.kind = .switchStatement

def HasLabel (o : Occurrence) (name : String) : Prop :=
  ∃ a ∈ o.scope, a.kind = .labeledStatement ∧ a.label? = some name

instance (o : Occurrence) : Decidable o.InFunction :=
  inferInstanceAs (Decidable (∃ a ∈ o.ancestors, a.kind.isFunction = true))

instance (o : Occurrence) : Decidable o.InLoop :=
  inferInstanceAs (Decidable (∃ a ∈ o.scope, a.kind.isLoop = true))

instance (o : Occurrence) : Decidable o.InSwitch :=
  inferInstanceAs (Decidable (∃ a ∈ o.scope, a.kind = .switchStatement))

instance (o : Occurrence) (name : String) : Decidable (o.HasLabel name) :=
  inferInstanceAs (Decidable (∃ a ∈ o.scope, a.kind = .labeledStatement ∧ a.label? = some name))

/-- The word of an illegal jump and what is wrong with it. -/
def illegalJump? (o : Occurrence) : Option (String × String) :=
  match o.node.kind with
  | .returnStatement =>
    if o.InFunction then none else some ("return", "Illegal return statement")
  | .breakStatement =>
    match o.node.label? with
    | some name => if o.HasLabel name then none else some ("break", s!"Undefined label '{name}'")
    | none => if o.InLoop ∨ o.InSwitch then none else some ("break", "Illegal break statement")
  | .continueStatement =>
    match o.node.label? with
    | some name =>
      if ¬ o.HasLabel name then some ("continue", s!"Undefined label '{name}'")
      else if o.InLoop then none else some ("continue", "Illegal continue statement")
    | none => if o.InLoop then none else some ("continue", "Illegal continue statement")
  | _ => none

/-- An illegal jump is reported right behind its word. -/
def jumpDiagnostic? (o : Occurrence) : Option Diagnostic :=
  o.illegalJump?.map fun (word, description) =>
    { index := o.node.span.start + word.length
      line := o.node.span.line
      column := o.node.span.column + word.length + 1
      description }

end Occurrence

/-- A name with nothing below it. -/
def Node.IsName (n : Node) : Prop :=
  n.kind = .identifier ∧ ∀ entry ∈ n.slots, entry.2.children = []

/-- A labelled statement has a label, and a `break` or `continue` has at most names below it. -/
def Node.LabelsFit (n : Node) : Prop :=
  (n.kind = .labeledStatement → n.label?.isSome = true) ∧
    (n.kind.endsJumpSearch = true → ∀ entry ∈ n.slots, ∀ c ∈ entry.2.children, c.IsName)

instance (n : Node) : Decidable n.IsName :=
  inferInstanceAs (Decidable (n.kind = .identifier ∧ ∀ entry ∈ n.slots, entry.2.children = []))

instance (n : Node) : Decidable n.LabelsFit :=
  inferInstanceAs (Decidable ((_ → _) ∧ (_ → ∀ entry ∈ n.slots, ∀ c ∈ entry.2.children, c.IsName)))

/-! ## One node -/

/-- Leaving a node undoes entering it, and no count is used up. -/
theorem JumpContext.leave?_enter (context : JumpContext) (n : Node) :
    context.leave? (context.enter n) n = some context := by
  unfold JumpContext.leave? JumpContext.enter
  split_ifs <;> rfl

theorem JumpScan.report_eq
    (context : JumpContext) (found : List Diagnostic) (n : Node) :
    JumpScan.report ⟨context, found⟩ n =
      ⟨context, found ++ ((context.jumpError? n).map (JumpError.toDiagnostic · n)).toList⟩ := by
  unfold JumpScan.report
  cases context.jumpError? n <;> simp

/-! ## The walk -/

/-- The account with which a walk comes to what is below the given nodes.  It does not come to
what is below a `break` or a `continue`. -/
def JumpContext.below? (start : JumpContext) : List (Node × Step) → Option JumpContext
  | [] => some start
  | (a, _) :: above =>
    if a.kind.endsJumpSearch then none else (below? start above).map (·.enter a)

/-- The problem that a walk finds at a node. -/
def Occurrence.found? (start : JumpContext) (o : Occurrence) : Option Diagnostic :=
  (start.below? o.above).bind fun context =>
    (context.jumpError? o.node).map (JumpError.toDiagnostic · o.node)

theorem Occurrence.found?_eq_none
    {start : JumpContext} {n : Node} {above : List (Node × Step)}
    (hbelow : start.below? above = none) :
    ∀ o ∈ n.occurrences above, o.found? start = none := by
  have hnever : ∀ o ∈ n.occurrences above, start.below? o.above = none := by
    refine Node.occurrences_induction hbelow fun o step c ho _ => ?_
    rw [JumpContext.below?, ho]
    split_ifs <;> rfl
  intro o ho
  rw [Occurrence.found?, hnever o ho]
  rfl

/-- The walk over a node finds what it should and leaves the account as it was. -/
def Node.ScansTo (n : Node) (start : JumpContext) : Prop :=
  ∀ (above : List (Node × Step)) (context : JumpContext) (found : List Diagnostic),
    start.below? above = some context →
      n.scanJumps ⟨context, found⟩ =
        some ⟨context, found ++ (n.occurrences above).filterMap (Occurrence.found? start)⟩

section

variable {start context : JumpContext} {parent : Node} {above : List (Node × Step)}

theorem scanJumpsInNodes_eq
    {field : Field} {ns : List Node}
    (hbelow : ∀ step, start.below? ((parent, step) :: above) = some context)
    (hns : ∀ n ∈ ns, n.ScansTo start)
    (position : Nat) (found : List Diagnostic) :
    scanJumpsInNodes ⟨context, found⟩ ns =
      some ⟨context, found ++ (occurrencesInNodes parent above field position ns).filterMap
        (Occurrence.found? start)⟩ := by
  induction ns generalizing position found with
  | nil => simp [scanJumpsInNodes, occurrencesInNodes]
  | cons n rest ih =>
      have hn := hns n (by simp) _ context found (hbelow ⟨field, some position⟩)
      rw [scanJumpsInNodes, hn, occurrencesInNodes, List.filterMap_append, ← List.append_assoc]
      exact ih (fun m hm => hns m (by simp [hm])) (position + 1) _

theorem Slot.scanJumps_eq
    (field : Field)
    {slot : Slot}
    (hbelow : ∀ step, start.below? ((parent, step) :: above) = some context)
    (hslot : ∀ c ∈ slot.children, c.ScansTo start)
    (found : List Diagnostic) :
    slot.scanJumps ⟨context, found⟩ =
      some ⟨context, found ++
        (slot.occurrences parent above field).filterMap (Occurrence.found? start)⟩ := by
  cases slot with
  | node c => exact hslot c (by simp [Slot.children]) _ context found (hbelow ⟨field, none⟩)
  | list cs => exact scanJumpsInNodes_eq hbelow hslot 0 found
  | absent => simp [Slot.scanJumps, Slot.occurrences]
  | scalar s => simp [Slot.scanJumps, Slot.occurrences]

theorem scanJumpsInSlots_eq
    {slots : List (Field × Slot)}
    (hbelow : ∀ step, start.below? ((parent, step) :: above) = some context)
    (hslots : ∀ entry ∈ slots, ∀ c ∈ entry.2.children, c.ScansTo start)
    (found : List Diagnostic) :
    scanJumpsInSlots ⟨context, found⟩ slots =
      some ⟨context, found ++
        (occurrencesInSlots parent above slots).filterMap (Occurrence.found? start)⟩ := by
  induction slots generalizing found with
  | nil => simp [scanJumpsInSlots, occurrencesInSlots]
  | cons entry rest ih =>
      obtain ⟨field, slot⟩ := entry
      rw [scanJumpsInSlots, Slot.scanJumps_eq field hbelow (hslots (field, slot) (by simp)),
        occurrencesInSlots, List.filterMap_append, ← List.append_assoc]
      exact ih (fun entry hentry => hslots entry (by simp [hentry])) _

end

/-- The walk reports a node first, then goes through its children with the account of the
inside. -/
theorem Node.scanJumps_eq (n : Node) (scan : JumpScan) :
    n.scanJumps scan =
      if n.kind.endsJumpSearch then some (scan.report n)
      else
        (scanJumpsInSlots ⟨scan.context.enter n, (scan.report n).found⟩ n.slots).bind fun below =>
          (scan.context.leave? below.context n).bind fun context =>
            some ⟨context, below.found⟩ := by
  obtain ⟨kind, span, slots⟩ := n
  rfl

theorem Node.scansTo (n : Node) (start : JumpContext) : n.ScansTo start := by
  induction n using Node.childInduction with
  | hparent n ih =>
      intro above context found hbelow
      have hhere : (Occurrence.found? start ⟨n, above⟩).toList =
          ((context.jumpError? n).map (JumpError.toDiagnostic · n)).toList := by
        simp [Occurrence.found?, hbelow]
      have hall : (n.occurrences above).filterMap (Occurrence.found? start) =
          ((context.jumpError? n).map (JumpError.toDiagnostic · n)).toList ++
            (occurrencesInSlots n above n.slots).filterMap (Occurrence.found? start) := by
        rw [Node.occurrences_eq, ← hhere, List.filterMap_cons]
        cases Occurrence.found? start ⟨n, above⟩ <;> rfl
      rw [Node.scanJumps_eq, JumpScan.report_eq, hall, ← List.append_assoc]
      split_ifs with hends
      · -- Nothing below a `break` or a `continue` is visited.
        have hnone :
            (occurrencesInSlots n above n.slots).filterMap (Occurrence.found? start) = [] := by
          rw [List.filterMap_eq_nil_iff]
          intro o ho
          obtain ⟨step, c, -, hmem⟩ := exists_child_of_mem_occurrencesInSlots ho
          exact Occurrence.found?_eq_none (by rw [JumpContext.below?, if_pos hends]) o hmem
        rw [hnone, List.append_nil]
      · have hinside : ∀ step, start.below? ((n, step) :: above) = some (context.enter n) := by
          intro step
          rw [JumpContext.below?, if_neg hends, hbelow]
          rfl
        rw [scanJumpsInSlots_eq hinside ih]
        simp only [Option.bind_some, JumpContext.leave?_enter]

/-! ## The account and the nodes above -/

/-- The account of a walk that starts with nothing. -/
def JumpContext.under (ancestors : List Node) : JumpContext :=
  ancestors.foldr (fun a context => context.enter a) {}

/-- The account counts the loops and switches above and lists the labels, up to the nearest
function. -/
theorem JumpContext.under_eq (ancestors : List Node) :
    let scope := ancestors.takeWhile fun a => !a.kind.isFunction
    JumpContext.under ancestors =
      { inFunction := ancestors.any fun a => a.kind.isFunction
        loopDepth := scope.countP fun a => a.kind.isLoop
        switchDepth := scope.countP fun a => a.kind = .switchStatement
        labels := (scope.filter fun a => a.kind = .labeledStatement).map
          fun a => a.label?.getD "" } := by
  induction ancestors with
  | nil => rfl
  | cons a rest ih =>
      have hcons : JumpContext.under (a :: rest) = (JumpContext.under rest).enter a := rfl
      simp only at ih ⊢
      rw [hcons, ih, JumpContext.enter]
      cases hkind : a.kind <;> simp [hkind, Kind.isFunction, Kind.isLoop]

namespace Occurrence

variable {o : Occurrence}

theorem inFunction_under_iff :
    (JumpContext.under o.ancestors).inFunction = true ↔ o.InFunction := by
  simp [JumpContext.under_eq, InFunction]

theorem loopDepth_under_eq_zero_iff :
    (JumpContext.under o.ancestors).loopDepth = 0 ↔ ¬ o.InLoop := by
  simp [JumpContext.under_eq, InLoop, scope, List.countP_eq_zero]

theorem switchDepth_under_eq_zero_iff :
    (JumpContext.under o.ancestors).switchDepth = 0 ↔ ¬ o.InSwitch := by
  simp [JumpContext.under_eq, InSwitch, scope, List.countP_eq_zero]

theorem mem_labels_under_iff (hfit : ∀ a ∈ o.ancestors, a.LabelsFit) {name : String} :
    name ∈ (JumpContext.under o.ancestors).labels ↔ o.HasLabel name := by
  have hlabel : ∀ a ∈ o.scope, a.kind = .labeledStatement →
      (a.label?.getD "" = name ↔ a.label? = some name) := by
    intro a ha hkind
    have hmem : a ∈ o.ancestors := (List.takeWhile_sublist _).subset ha
    obtain ⟨found, hfound⟩ := Option.isSome_iff_exists.mp ((hfit a hmem).1 hkind)
    simp [hfound]
  simp only [JumpContext.under_eq, List.mem_map, List.mem_filter, decide_eq_true_eq, HasLabel]
  constructor
  · rintro ⟨a, ⟨ha, hkind⟩, hname⟩
    exact ⟨a, ha, hkind, (hlabel a ha hkind).mp hname⟩
  · rintro ⟨a, ha, hkind, hname⟩
    exact ⟨a, ⟨ha, hkind⟩, (hlabel a ha hkind).mpr hname⟩

/-- The account of what is above a node decides as the rules do. -/
theorem jumpError?_under (hfit : ∀ a ∈ o.ancestors, a.LabelsFit) :
    ((JumpContext.under o.ancestors).jumpError? o.node).map (JumpError.toDiagnostic · o.node) =
      o.jumpDiagnostic? := by
  unfold jumpDiagnostic? illegalJump? JumpContext.jumpError? JumpError.toDiagnostic
  simp only [inFunction_under_iff, loopDepth_under_eq_zero_iff, switchDepth_under_eq_zero_iff,
    mem_labels_under_iff hfit]
  cases o.node.kind with
  | returnStatement =>
      by_cases hfunction : o.InFunction
      · simp only [if_pos hfunction, Option.map_none]
      · simp only [if_neg hfunction]
        rfl
  | breakStatement =>
      cases o.node.label? with
      | some name =>
          by_cases hname : o.HasLabel name
          · simp only [if_pos hname, Option.map_none]
          · simp only [if_neg hname]
            rfl
      | none =>
          by_cases henclosed : o.InLoop ∨ o.InSwitch
          · simp only [← not_or, if_pos henclosed, if_neg (not_not_intro henclosed),
              Option.map_none]
          · simp only [← not_or, if_neg henclosed, if_pos henclosed]
            rfl
  | continueStatement =>
      cases o.node.label? with
      | some name =>
          by_cases hname : o.HasLabel name
          · by_cases hloop : o.InLoop
            · simp only [hname, hloop, not_true_eq_false, if_true, if_false, Option.map_none]
            · simp only [hname, hloop, not_true_eq_false, not_false_eq_true, if_true, if_false]
              rfl
          · simp only [hname, not_false_eq_true, if_true]
            rfl
      | none =>
          by_cases hloop : o.InLoop
          · simp only [hloop, not_true_eq_false, if_true, if_false, Option.map_none]
          · simp only [hloop, not_false_eq_true, if_true, if_false]
            rfl
  | _ => rfl

/-- What is known of an occurrence when the labels of its tree fit: the walk comes to it with the
account of the nodes above, or it is the name in a jump. -/
structure Accounted (o : Occurrence) : Prop where
  fits : o.node.All Node.LabelsFit
  above : ∀ a ∈ o.ancestors, a.LabelsFit
  met : JumpContext.below? {} o.above = some (JumpContext.under o.ancestors) ∨ o.node.IsName

theorem Accounted.child
    {step : Step} {c : Node}
    (ho : o.Accounted) (hc : o.node.HoldsAt step c) :
    Accounted ⟨c, (o.node, step) :: o.above⟩ := by
  obtain ⟨entry, hentry, hchild⟩ := hc.mem_children
  refine ⟨ho.fits.holdsAt hc, ?_, ?_⟩
  · intro a ha
    rcases List.mem_cons.mp ha with rfl | ha
    · exact ho.fits.here
    · exact ho.above a ha
  · rcases ho.met with hmet | hname
    · by_cases hends : o.node.kind.endsJumpSearch = true
      · exact .inr (ho.fits.here.2 hends entry hentry c hchild)
      · left
        rw [JumpContext.below?, if_neg hends, hmet]
        rfl
    · -- A name has no children.
      rw [hname.2 entry hentry] at hchild
      cases hchild

theorem Accounted.found?_eq (ho : o.Accounted) : o.found? {} = o.jumpDiagnostic? := by
  rcases ho.met with hmet | hname
  · rw [found?, hmet]
    exact jumpError?_under ho.above
  · have hnone : ∀ context : JumpContext, context.jumpError? o.node = none := by
      intro context
      simp [JumpContext.jumpError?, hname.1]
    simp [found?, hnone, jumpDiagnostic?, illegalJump?, hname.1]

end Occurrence

/-- The search for illegal jumps reports exactly the jumps that are illegal by what encloses them,
in the order of the source.  Whatever the account in front of a subtree, the walk over the subtree
comes to an end without using up a count and leaves the account as it was. -/
theorem Node.jumpDiagnostics_eq_illegal {root : Node} (hlabels : root.All Node.LabelsFit) :
    root.jumpDiagnostics = (root.occurrences []).filterMap Occurrence.jumpDiagnostic? ∧
      ∀ (n : Node) (scan : JumpScan),
        ∃ found, n.scanJumps scan = some ⟨scan.context, scan.found ++ found⟩ := by
  refine ⟨?_, fun n scan => ⟨_, n.scansTo scan.context [] scan.context scan.found rfl⟩⟩
  have hscan := root.scansTo {} [] {} [] rfl
  have haccounted : ∀ o ∈ root.occurrences [], o.Accounted :=
    Node.occurrences_induction ⟨hlabels, by simp [Occurrence.ancestors], .inl rfl⟩
      fun _ _ _ ho hc => ho.child hc
  calc root.jumpDiagnostics
      = (root.occurrences []).filterMap (Occurrence.found? {}) := by
        rw [Node.jumpDiagnostics, hscan]
        rfl
    _ = (root.occurrences []).filterMap Occurrence.jumpDiagnostic? :=
        List.filterMap_congr fun o ho => (haccounted o ho).found?_eq

/-- In `outer: while (x) { (function () { break outer; })(); continue outer; } return;` the label
does not reach into the function, the loop does reach the `continue`, and nothing is left of either
at the `return`. -/
theorem Node.jumpDiagnostics_eq_illegal_nested :
    ∃ root : Node, root.All Node.LabelsFit ∧
      root.jumpDiagnostics =
        [⟨39, 1, 40, "Undefined label 'outer'"⟩, ⟨77, 1, 78, "Illegal return statement"⟩] ∧
      root.jumpDiagnostics = (root.occurrences []).filterMap Occurrence.jumpDiagnostic? := by
  let label : Field × Slot := (.label, .node (.identifier "outer"))
  let jump : Node := .mk .breakStatement ⟨34, 46, 1, 34⟩ [label]
  let function : Node := .mk .functionExpression {}
    [(.params, .list []), (.body, .node (.mk .blockStatement {} [(.body, .list [jump])]))]
  let statement : Node := .mk .expressionStatement {} [(.expression, .node function)]
  let again : Node := .mk .continueStatement ⟨53, 68, 1, 53⟩ [label]
  let loop : Node := .mk .whileStatement {}
    [(.test, .node (.identifier "x")),
      (.body, .node (.mk .blockStatement {} [(.body, .list [statement, again])]))]
  let root : Node := .mk .program {} [(.body, .list
    [.mk .labeledStatement {} [label, (.body, .node loop)],
      .mk .returnStatement ⟨71, 78, 1, 71⟩ [(.argument, .absent)]])]
  have hlabels : root.All Node.LabelsFit := by decide
  exact ⟨root, hlabels, by decide +kernel, (Node.jumpDiagnostics_eq_illegal hlabels).1⟩

end Graft
