import Graft.Proofs.PlacedProgram
import Graft.Proofs.Selection
import Graft.Proofs.Unplaced

/-!
# Expressions at the places of statements

A pattern that is an expression is meant for expressions.  It is tried at every node of its kind,
and kinds tell statements from expressions, with one exception: source text without a kind of its
own stands for both.  A match of such a pattern at the place of a statement is therefore a match
of source text with the same source text, and every such statement is matched.
-/

namespace Graft

theorem Kind.eq_raw_of_isStatement_of_isExpression
    {kind : Kind}
    (hstatement : kind.isStatement = true) (hexpression : kind.isExpression = true) :
    kind = .raw := by
  revert hstatement hexpression
  cases kind <;> decide

theorem Site.declaresName_eq_false
    {site : Site}
    (hslot : site.parent.kind.hasStatementSlot site.field = true) :
    site.declaresName = false := by
  rw [Kind.hasStatementSlot, Bool.or_eq_true] at hslot
  rcases hslot with hslot | hslot
  · unfold Kind.hasStatementList at hslot
    split at hslot <;> simp_all [Site.declaresName]
  · unfold Kind.hasSingleStatement at hslot
    split at hslot <;> simp_all [Site.declaresName]

/-- Source text fits the same source text and nothing else. -/
theorem Node.unify_raw_iff
    {w : Wildcards} {text : String} {span : Span} {c : Node} {bs : Bindings} :
    (Node.raw text span).unify w c [] = (true, bs) ↔
      c.kind = .raw ∧ c.slot? .text = some (.text text) ∧ bs = [] := by
  have hname : w.valueName? (.mk .raw span [(.text, .text text)]) = none := rfl
  simp only [Node.raw, Node.unify, hname, unifySlots]
  split_ifs with hkind hblock
  · simp [Ne.symm hkind]
  · cases hblock.1
  · have hcandidate : ∀ candidate : Slot,
        andThen ((Slot.text text).unify w .raw .text candidate []) (fun bs => (true, bs)) =
          (true, bs) ↔ candidate = .text text ∧ bs = [] := by
      intro candidate
      cases candidate with
      | scalar found =>
          cases found with
          | text other =>
              by_cases hsame : text = other
              · subst hsame
                simp [Slot.text, Slot.unify, Scalar.same, andThen]
              · simp [Slot.text, Slot.unify, Scalar.same, andThen, hsame, Ne.symm hsame]
          | _ => simp [Slot.text, Slot.unify, Scalar.same, andThen]
      | _ => simp [Slot.text, Slot.unify, andThen]
    rw [hcandidate, not_not.mp hkind]
    cases c.slot? .text <;> simp [Slot.text]

theorem Node.eq_raw_iff {n : Node} (hfields : n.HasKindFields) {text : String} :
    (∃ span, n = .raw text span) ↔ n.kind = .raw ∧ n.slot? .text = some (.text text) := by
  constructor
  · rintro ⟨span, rfl⟩
    exact ⟨rfl, rfl⟩
  · rintro ⟨hkind, hslot⟩
    have hslots := hfields.slots_eq_singleton (by rw [hkind]; rfl) hslot
    obtain ⟨kind, span, slots⟩ := n
    cases hkind
    cases hslots
    exact ⟨span, rfl⟩

variable {p : Pattern} {top tree n c : Node} {step : Step}

/-- At the place of a statement a pattern that is an expression may be tried and fits exactly if
both are the same source text. -/
theorem Pattern.fits_statement_iff
    (hfragment : p.fragment = .expression top)
    (htop : top.IsOperand)
    (hn : n.ReadHere)
    (hc : c.HasKindFields)
    (hslot : n.kind.hasStatementSlot step.field = true)
    (hstep : n.childAt? step = some c) :
    (p.isEligible (some ⟨n, step.field⟩) c = true ∧ ∃ bs, p.FitsNode c bs) ↔
      ∃ text span span', top = .raw text span ∧ c = .raw text span' := by
  have hstatement : c.kind.isStatement = true := by
    obtain ⟨slot, hentry, hchild⟩ := Node.childAt?_eq_some_iff.mp hstep
    exact hn.statements _ (Node.mem_slots_of_slot? hentry) hslot c
      (Slot.mem_children_of_child? hchild)
  have hname : Site.declaresName ⟨n, step.field⟩ = false := Site.declaresName_eq_false hslot
  simp only [Pattern.isEligible, hfragment, Option.any_some, hname, Bool.false_eq_true, if_false,
    Pattern.FitsNode, Fragment.nodes, List.head?_cons, Option.some.injEq, exists_eq_left']
  constructor
  · rintro ⟨heligible, bs, hfits⟩
    split_ifs at heligible with hwildcard
    · -- a wildcard is tried at expressions, and only source text is also a statement
      rw [Bool.and_eq_true, bne_iff_ne] at heligible
      exact absurd (Kind.eq_raw_of_isStatement_of_isExpression hstatement heligible.1)
        heligible.2
    · rw [beq_iff_eq] at heligible
      rw [heligible] at hstatement
      obtain ⟨text, span, rfl⟩ := htop hstatement
      obtain ⟨hkind, htext, -⟩ := Node.unify_raw_iff.mp hfits
      obtain ⟨span', hraw⟩ := (Node.eq_raw_iff hc).mpr ⟨hkind, htext⟩
      exact ⟨text, span, span', rfl, hraw⟩
  · rintro ⟨text, span, span', rfl, rfl⟩
    exact ⟨rfl, [], Node.unify_raw_iff.mpr ⟨rfl, rfl, rfl⟩⟩

/-- A node is found by its last step exactly if the pattern may be tried there and fits. -/
theorem Pattern.exists_match_at_iff
    (hdistinct : tree.DistinctFields)
    {parent : Path}
    (hparent : parent.resolve? tree = some n) :
    (∃ m ∈ p.findAll tree, m.region = .node (parent ++ [step])) ↔
      ∃ c, n.childAt? step = some c ∧
        p.isEligible (some ⟨n, step.field⟩) c = true ∧ ∃ bs, p.FitsNode c bs := by
  have hsite : (Path.site? (parent ++ [step]) tree).or none = some ⟨n, step.field⟩ := by
    rw [Option.or_none, Path.site?_append_singleton, hparent, Option.map_some]
  constructor
  · rintro ⟨m, hm, hregion⟩
    obtain ⟨c, hc, heligible, hfits⟩ :=
      (Node.exists_node_match_iff hdistinct).mp ⟨m, hm, hregion, rfl⟩
    obtain ⟨n', hn', hstep⟩ := Path.resolve?_append_singleton_eq_some hc
    rw [hparent] at hn'
    cases hn'
    rw [hsite] at heligible
    exact ⟨c, hstep, heligible, m.bindings, hfits⟩
  · rintro ⟨c, hstep, heligible, bs, hfits⟩
    have hc : Path.resolve? (parent ++ [step]) tree = some c := by
      rw [Path.resolve?_append, hparent, Option.bind_some, Path.resolve?_cons, hstep]
      rfl
    rw [← hsite] at heligible
    obtain ⟨m, hm, hregion, -⟩ :=
      (Node.exists_node_match_iff hdistinct).mpr ⟨c, hc, heligible, hfits⟩
    exact ⟨m, hm, hregion⟩

/-- An expression searched in a program is matched by single nodes, and by a node at the place of
a statement exactly if the expression is source text without a kind of its own and the statement
is the same source text. -/
theorem Pattern.findAll_at_statement_iff
    {text source : String}
    (hcompile : Pattern.compile text = .ok p)
    (hfragment : p.fragment = .expression top)
    (hparse : parse source = .ok tree) :
    (∀ m ∈ p.findAll tree, ∃ path, m.region = .node path) ∧
    ∀ (parent : Path) (step : Step) (n : Node), parent.resolve? tree = some n →
      n.kind.hasStatementSlot step.field = true →
      ((∃ m ∈ p.findAll tree, m.region = .node (parent ++ [step])) ↔
        ∃ raw span span', top = .raw raw span ∧ n.childAt? step = some (.raw raw span')) := by
  have hread := read_of_parse hparse
  have htop : top.IsOperand := by
    have hhalf := (Pattern.compile_eq_ok_iff.mp hcompile).1
    rw [hfragment] at hhalf
    exact (Fragment.read_of_parse hhalf).2 top rfl
  have hdistinct : tree.DistinctFields :=
    Node.distinctFields_of_hasKindFields (hread.imp fun _ hn => hn.fields)
  refine ⟨fun m hm => Pattern.exists_node_of_expression hdistinct hfragment hm, ?_⟩
  intro parent step n hparent hslot
  have hn : n.Read := Node.All.resolve hread hparent
  rw [Pattern.exists_match_at_iff hdistinct hparent]
  constructor
  · rintro ⟨c, hstep, hfits⟩
    have hc : c.HasKindFields := (Node.All.childAt hn hstep).here.fields
    obtain ⟨raw, span, span', htop', rfl⟩ :=
      (Pattern.fits_statement_iff hfragment htop hn.here hc hslot hstep).mp hfits
    exact ⟨raw, span, span', htop', hstep⟩
  · rintro ⟨raw, span, span', htop', hstep⟩
    have hc : (Node.raw raw span').HasKindFields := (Node.All.childAt hn hstep).here.fields
    exact ⟨_, hstep, (Pattern.fits_statement_iff hfragment htop hn.here hc hslot hstep).mpr
      ⟨raw, span, span', htop', rfl⟩⟩

/-- A class in parentheses is an expression, and is found where the class is declared. -/
theorem Pattern.findAll_at_statement_iff_class :
    ∃ p top tree, Pattern.compile "(class A \x7b\x7d)" = .ok p ∧ p.fragment = .expression top ∧
      parse "class A \x7b\x7d" = .ok tree ∧ tree.kind.hasStatementSlot .body = true ∧
      ∃ m ∈ p.findAll tree, m.region = .node [⟨.body, some 0⟩] := by
  have hrun : ((Pattern.compile "(class A \x7b\x7d)").toOption.any fun p : Pattern =>
      (parse "class A \x7b\x7d").toOption.any fun tree : Node =>
        p.isEligible none (.raw "") &&
          decide (p.fragment.nodes = [.raw "class A \x7b\x7d" ⟨1, 11, 1, 1⟩]) &&
          tree.kind.hasStatementSlot .body &&
          decide (tree.childAt? ⟨.body, some 0⟩ =
            some (.raw "class A \x7b\x7d" ⟨0, 10, 1, 0⟩))) = true := by
    decide +kernel
  obtain ⟨p, hp, hrun⟩ := exists_ok_of_any hrun
  obtain ⟨tree, htree, hrun⟩ := exists_ok_of_any hrun
  simp only [Bool.and_eq_true, decide_eq_true_iff] at hrun
  obtain ⟨⟨⟨heligible, hnodes⟩, hslot⟩, hchild⟩ := hrun
  cases hfragment : p.fragment with
  | statements body => simp [Pattern.isEligible, hfragment] at heligible
  | expression top =>
      rw [hfragment] at hnodes
      have htop : top = .raw "class A \x7b\x7d" ⟨1, 11, 1, 1⟩ := List.head_eq_of_cons_eq hnodes
      exact ⟨p, top, tree, hp, hfragment, htree, hslot,
        ((Pattern.findAll_at_statement_iff hp hfragment htree).2 [] ⟨.body, some 0⟩ tree rfl
          hslot).mpr ⟨_, _, _, htop, hchild⟩⟩

end Graft
