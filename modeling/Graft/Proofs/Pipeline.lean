import Graft.Proofs.Compile
import Graft.Proofs.UnplacedPrint
import Graft.Source

/-!
# Rules one after the other

A list of rules is applied to one tree, which is printed at the end.  Applying the rules one by one
to text, with a print and a read between them, gives the same as long as each tree that was changed
reads back as itself: the trees then differ in their places only, and a rule does not look at
places.
-/

namespace Graft

/-! ## One rule -/

/-- The tree prints to a text that reads as the same tree, up to places. -/
def Node.Reparses (n : Node) : Prop :=
  ∃ tree, parse (n.print .edited) = .ok tree ∧ tree.unplaced = n.unplaced

instance (n : Node) : Decidable n.Reparses :=
  match hread : parse (n.print .edited) with
  | .ok tree => decidable_of_iff (tree.unplaced = n.unplaced) (by simp [Node.Reparses, hread])
  | .error _ => isFalse (by simp [Node.Reparses, hread])

namespace Rule

/-- A rule does the same to two trees that differ in their places only. -/
theorem transform_congr (rule : Rule) {a b : Node} (hplaces : a.unplaced = b.unplaced) :
    (rule.transform a).map Transformed.unplaced = (rule.transform b).map Transformed.unplaced := by
  rw [← rule.transform_unplaced, ← rule.transform_unplaced, hplaces]

theorem tree_eq_of_applied_eq_zero
    {rule : Rule} {root : Node} {pass : Transformed}
    (hpass : rule.transform root = .ok pass) (hnone : pass.applied = 0) :
    pass.tree = root := by
  obtain ⟨tree, htree, hresult⟩ := bind_eq_ok_iff.mp hpass
  cases hresult
  rw [List.length_eq_zero_iff.mp hnone] at htree
  cases htree
  rfl

theorem transform_of_findAll_eq_nil
    {rule : Rule} {root : Node}
    (hfound : rule.pattern.findAll root = []) :
    rule.transform root = .ok ⟨root, 0, 0⟩ := by
  simp only [transform, hfound]
  rfl

/-! ## A list of rules -/

/-- The passes of a list of rules over a tree, up to the first that fails. -/
def passes : List Rule → Node → List Transformed
  | [], _ => []
  | rule :: rules, root =>
    match rule.transform root with
    | .ok pass => pass :: passes rules pass.tree
    | .error _ => []

theorem transformTree_cons
    {rule : Rule} {root : Node} {pass : Transformed}
    (hpass : rule.transform root = .ok pass)
    (rules : List Rule) :
    transformTree (rule :: rules) root =
      (transformTree rules pass.tree).map fun result => (result.1, pass.applied + result.2) := by
  rw [transformTree, hpass]
  cases htree : transformTree rules pass.tree <;> simp only [bind, Except.bind, htree] <;> rfl

theorem transformTree_cons_of_error
    {rule : Rule} {root : Node} {e : EditError}
    (hpass : rule.transform root = .error e)
    (rules : List Rule) :
    transformTree (rule :: rules) root = .error e := by
  rw [transformTree, hpass]
  rfl

theorem tree_eq_of_none_applied
    {rules : List Rule} {root tree : Node}
    (hrules : transformTree rules root = .ok (tree, 0)) :
    tree = root := by
  induction rules generalizing root with
  | nil =>
      cases hrules
      rfl
  | cons rule rules ih =>
      obtain ⟨pass, hpass, hrest⟩ := bind_eq_ok_iff.mp hrules
      obtain ⟨⟨last, applied⟩, hlast, hresult⟩ := bind_eq_ok_iff.mp hrest
      simp only [pure, Except.pure, Except.ok.injEq, Prod.mk.injEq, Nat.add_eq_zero_iff] at hresult
      obtain ⟨rfl, hnone, rfl⟩ := hresult
      rw [ih hlast]
      exact tree_eq_of_applied_eq_zero hpass hnone

/-- What a text becomes when its tree becomes another with some number of replacements. -/
def textAfter (text : String) (result : Node × Nat) : String :=
  if result.2 = 0 then text else result.1.print .edited

theorem transformSource_of_parse
    {text : String} {read : Node}
    (hread : parse text = .ok read)
    (rules : List Rule) :
    transformSource rules text =
      ((transformTree rules read).mapError .edit).map (textAfter text) := by
  rw [transformSource, readTree, hread]
  change (do
    let result ← (transformTree rules read).mapError Failure.edit
    return textAfter text result) = _
  cases transformTree rules read <;> rfl

/-- One rule on a text, by any tree that the text reads as up to places. -/
theorem transformSource_singleton
    {text : String} {read tree : Node}
    (hread : parse text = .ok read) (hplaces : read.unplaced = tree.unplaced)
    (rule : Rule) :
    transformSource [rule] text =
      ((rule.transform tree).mapError .edit).map
        fun pass => textAfter text (pass.tree, pass.applied) := by
  have hforget : ∀ result : Except EditError Transformed,
      ((result.map Transformed.unplaced).mapError Failure.edit).map
          (fun pass => textAfter text (pass.tree, pass.applied)) =
        (result.mapError Failure.edit).map
          fun pass => textAfter text (pass.tree, pass.applied) := by
    intro result
    cases result with
    | error e => rfl
    | ok pass =>
        have hprint : textAfter text (pass.tree.unplaced, pass.applied) =
            textAfter text (pass.tree, pass.applied) := by
          simp only [textAfter, Node.print_unplaced]
        exact congrArg Except.ok hprint
  have hsource : transformSource [rule] text =
      ((rule.transform read).mapError .edit).map
        fun pass => textAfter text (pass.tree, pass.applied) := by
    rw [transformSource_of_parse hread]
    cases hpass : rule.transform read with
    | error e =>
        rw [transformTree_cons_of_error hpass]
        rfl
    | ok pass =>
        rw [transformTree_cons hpass]
        rfl
  rw [hsource, ← hforget, rule.transform_congr hplaces, hforget]

theorem textAfter_textAfter
    {rules : List Rule} {pass : Transformed} {result : Node × Nat}
    (hrules : transformTree rules pass.tree = .ok result)
    (text : String) :
    textAfter (textAfter text (pass.tree, pass.applied)) result =
      textAfter text (result.1, pass.applied + result.2) := by
  obtain ⟨tree, applied⟩ := result
  by_cases hnone : applied = 0
  · subst hnone
    rw [tree_eq_of_none_applied hrules]
    rfl
  · have hsome : pass.applied + applied ≠ 0 := by omega
    simp only [textAfter, if_neg hnone, if_neg hsome]

/-- The text after a pass reads as the tree after it. -/
theorem reads_textAfter
    {rule : Rule} {text : String} {read tree : Node} {pass : Transformed}
    (hread : parse text = .ok read)
    (hplaces : read.unplaced = tree.unplaced)
    (hpass : rule.transform tree = .ok pass)
    (hreparse : pass.applied ≠ 0 → pass.tree.Reparses) :
    ∃ next, parse (textAfter text (pass.tree, pass.applied)) = .ok next ∧
      next.unplaced = pass.tree.unplaced := by
  by_cases hnone : pass.applied = 0
  · rw [textAfter, if_pos hnone, tree_eq_of_applied_eq_zero hpass hnone]
    exact ⟨read, hread, hplaces⟩
  · rw [textAfter, if_neg hnone]
    exact hreparse hnone

/-- The run by texts against the run by trees.  The invariant is that the text so far reads as the
tree so far up to places. -/
theorem foldlM_transformSource
    {rules : List Rule} {text : String} {read tree : Node}
    (hread : parse text = .ok read)
    (hplaces : read.unplaced = tree.unplaced)
    (hreparse : ∀ pass ∈ passes rules tree, pass.applied ≠ 0 → pass.tree.Reparses) :
    rules.foldlM (fun text rule => transformSource [rule] text) text =
      ((transformTree rules tree).mapError .edit).map (textAfter text) := by
  induction rules generalizing text read tree with
  | nil => rfl
  | cons rule rules ih =>
      rw [List.foldlM_cons, transformSource_singleton hread hplaces]
      cases hpass : rule.transform tree with
      | error e =>
          rw [transformTree_cons_of_error hpass]
          rfl
      | ok pass =>
          simp only [passes, hpass, List.mem_cons, forall_eq_or_imp] at hreparse
          obtain ⟨next, hnext, hsame⟩ := reads_textAfter hread hplaces hpass hreparse.1
          have hrest := ih hnext hsame hreparse.2
          rw [transformTree_cons hpass]
          apply hrest.trans
          cases hrules : transformTree rules pass.tree with
          | error e => rfl
          | ok result => exact congrArg Except.ok (textAfter_textAfter hrules text)

theorem transformTree_of_findAll_eq_nil
    {rules : List Rule} {root : Node}
    (hfound : ∀ rule ∈ rules, rule.pattern.findAll root = []) :
    transformTree rules root = .ok (root, 0) := by
  induction rules with
  | nil => rfl
  | cons rule rules ih =>
      have hpass := transform_of_findAll_eq_nil (hfound rule List.mem_cons_self)
      have hrest := ih fun later hlater => hfound later (List.mem_cons_of_mem rule hlater)
      rw [transformTree_cons hpass, hrest]
      rfl

end Rule

theorem foldlM_transform_of_mapM_compile
    {rules : List String} {compiled : List Rule}
    (hcompiled : rules.mapM Rule.compile = .ok compiled)
    (text : String) :
    rules.foldlM transform text =
      compiled.foldlM (fun text rule => Rule.transformSource [rule] text) text := by
  induction mapM_eq_ok_iff.mp hcompiled generalizing text with
  | nil => rfl
  | @cons rule first rules rest hfirst hrest ih =>
      have htransform : transform text rule = Rule.transformSource [first] text := by
        rw [transform, hfirst]
        rfl
      rw [List.foldlM_cons, List.foldlM_cons, htransform]
      simp only [ih (mapM_eq_ok_iff.mpr hrest)]

/-- Applying rules together is applying one after the other, each to the text that those before it
give, if every tree that a rule has changed is read back from its text.  It gives a text or the
error of an edit, and it leaves a source alone in which no rule finds anything. -/
theorem transformAll_eq_foldlM
    {source : String} {rules : List String} {root : Node} {compiled : List Rule}
    (hroot : parse source = .ok root)
    (hcompiled : rules.mapM Rule.compile = .ok compiled)
    (hreparse : ∀ pass ∈ Rule.passes compiled root, pass.applied ≠ 0 → pass.tree.Reparses) :
    transformAll source rules = rules.foldlM transform source ∧
      ((∃ text, transformAll source rules = .ok text) ∨
        ∃ e, transformAll source rules = .error (.edit e)) ∧
      ((∀ rule ∈ compiled, rule.pattern.findAll root = []) →
        transformAll source rules = .ok source) := by
  have hall : transformAll source rules =
      ((Rule.transformTree compiled root).mapError .edit).map (Rule.textAfter source) := by
    rw [← Rule.transformSource_of_parse hroot, transformAll, hcompiled]
    rfl
  have hfold := Rule.foldlM_transformSource hroot rfl hreparse
  refine ⟨?_, ?_, ?_⟩
  · rw [hall, foldlM_transform_of_mapM_compile hcompiled, hfold]
  · rw [hall]
    cases Rule.transformTree compiled root with
    | ok result => exact Or.inl ⟨_, rfl⟩
    | error e => exact Or.inr ⟨e, rfl⟩
  · intro hfound
    rw [hall, Rule.transformTree_of_findAll_eq_nil hfound]
    rfl

/-- The second rule rewrites what the first one makes. -/
theorem transformAll_eq_foldlM_twice :
    (transformAll "if (f(2)) \x7b f(b); \x7d"
        ["f(x) -> g(x, 1)", "g(x, y) -> y + x"]).toOption =
      some "if (1 + 2) \x7b\n    1 + b;\n\x7d" ∧
    (["f(x) -> g(x, 1)", "g(x, y) -> y + x"].foldlM transform
        "if (f(2)) \x7b f(b); \x7d").toOption =
      some "if (1 + 2) \x7b\n    1 + b;\n\x7d" := by
  have hrun :
      (match parse "if (f(2)) \x7b f(b); \x7d",
          ["f(x) -> g(x, 1)", "g(x, y) -> y + x"].mapM Rule.compile with
        | .ok root, .ok compiled =>
          decide (∀ pass ∈ Rule.passes compiled root, pass.applied ≠ 0 → pass.tree.Reparses)
        | _, _ => false) = true := by
    decide +kernel
  have hall :
      (transformAll "if (f(2)) \x7b f(b); \x7d"
          ["f(x) -> g(x, 1)", "g(x, y) -> y + x"]).toOption =
        some "if (1 + 2) \x7b\n    1 + b;\n\x7d" := by
    decide +kernel
  split at hrun
  next root compiled hroot hcompiled =>
    have hfold := (transformAll_eq_foldlM hroot hcompiled (decide_eq_true_iff.mp hrun)).1
    exact ⟨hall, hfold ▸ hall⟩
  next => cases hrun

end Graft
