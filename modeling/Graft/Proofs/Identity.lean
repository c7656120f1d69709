import Graft.Proofs.KeepStructure
import Graft.Proofs.PlacedProgram
import Graft.Proofs.Simultaneous
import Graft.Proofs.TemplateNames
import Graft.Proofs.Unification

/-!
# Rules that change nothing

A rule whose two halves are the same text puts every match in its own place.  The names of the
template are those of the pattern, so the rule compiles.  What a match binds turns the pattern
into something of the structure of the match, which is fitted into the place of the match without
being wrapped or refused.  So every edit keeps the structure, and all of them together do.
-/

namespace Graft

/-! ## Instances of a pattern -/

theorem unifySequence_singleton (w : Wildcards) (p c : Node) (bs : Bindings) :
    unifySequence w [p] [c] bs = p.unify w c bs := by
  simp only [unifySequence, List.length_singleton, unifyNodes, if_true]
  unfold andThen
  rcases p.unify w c bs with ⟨_ | _, bs'⟩ <;> rfl

/-- Under bindings that solve it, a fragment has an instance of its own form: an expression one
node like the only candidate, statements a sequence like the candidates. -/
theorem Fragment.instantiate_of_solves
    {fragment : Fragment} {w : Wildcards} {bs : Bindings} {candidate : List Node}
    (hcollect : Wildcards.collect fragment.nodes = .ok w)
    (hsolves : bs.Solves w fragment.nodes candidate) :
    (∃ top new n, fragment = .expression top ∧ candidate = [n] ∧ new.sameStructure n = true ∧
        fragment.instantiate bs = .ok (.node new)) ∨
      ∃ body body', fragment = .statements body ∧ sameSequence body' candidate = true ∧
        fragment.instantiate bs = .ok (.statements body') := by
  obtain ⟨hcovers, body', hbody, hsame⟩ := hsolves
  cases fragment with
  | statements body => exact .inr ⟨body, body', rfl, hsame, hbody⟩
  | expression top =>
      left
      obtain ⟨first, others, hfirst, hothers, hnodes⟩ :=
        expandNodes_cons_eq_ok_iff.mp (Fragment.instantiate_statements_eq_ok_iff.mp hbody)
      cases hothers
      have hadmits : ∀ use ∈ top.wildcardUses, w.Admits use := by
        intro use huse
        refine Wildcards.admits_of_collect hcollect use ?_
        simpa [Fragment.nodes, wildcardUsesInNodes] using huse
      obtain ⟨new, rfl⟩ := Node.expand_eq_one hcovers (Wildcards.proper_of_collect hcollect)
        hadmits hfirst
      rw [hnodes, List.append_nil, Expansion.nodes, sameSequence_iff] at hsame
      cases hsame with
      | cons hnew hnil =>
          cases hnil
          refine ⟨top, new, _, rfl, rfl, hnew, ?_⟩
          rw [Fragment.instantiate, hfirst]
          rfl

/-! ## Fitting an instance into the place of a match -/

/-- A compiled pattern whose instances can be put where they were found. -/
structure Pattern.Reproducible (p : Pattern) : Prop where
  collected : Wildcards.collect p.fragment.nodes = .ok p.wildcards
  fields : ∀ n ∈ p.fragment.nodes, n.All Node.HasKindFields
  blocks : ∀ n ∈ p.fragment.nodes, n.All fun m => ¬ m.IsEmptyBlock
  notRaw : ∀ top, p.fragment = .expression top → top.kind ≠ .raw

/-- The rule that puts a pattern in its own place. -/
def Pattern.identity (p : Pattern) : Rule := ⟨p, p.fragment⟩

section Fitting

variable {root n new : Node} {path : Path}

theorem checkSlot_of_site?
    {site : Site}
    (hnames : root.All Node.NamesFit)
    (hresolve : Path.resolve? path root = some n)
    (hsite : Path.site? path root = some site)
    (hkind : new.kind = n.kind) :
    checkSlot site.parent site.field new = .ok () := by
  obtain ⟨⟨front, hparent⟩, slot, hslot, hn⟩ := Path.exists_slot_of_site? hresolve hsite
  have hfits := (hnames.resolve hparent).here _ hslot n hn
  rw [checkSlot, hkind, if_pos hfits]

theorem Replacement.fitInto_of_toNode
    {site : Site} {r : Replacement}
    (hnames : root.All Node.NamesFit)
    (hresolve : Path.resolve? path root = some n)
    (hsite : Path.site? path root = some site)
    (hkind : new.kind = n.kind)
    (hnode : r.toNode (site.parent.kind.hasStatementSlot site.field) = .ok new) :
    r.fitInto root (.node path) = .ok [new] := by
  have hcheck := checkSlot_of_site? hnames hresolve hsite hkind
  simp only [Replacement.fitInto, hsite, hnode, bind, Except.bind, hcheck]
  rfl

theorem Node.asStatement_of_kind
    (hstatement : new.kind.isStatement = true) (hraw : new.kind ≠ .raw) :
    new.asStatement = new := by
  unfold Node.asStatement
  rw [if_pos]
  simp [hstatement, hraw]

/-- A node is fitted unchanged into the place of a node of its kind. -/
theorem Replacement.fitInto_of_node
    (hread : root.Read)
    (hnames : root.All Node.NamesFit)
    (hresolve : Path.resolve? path root = some n)
    (hkind : new.kind = n.kind)
    (hraw : n.kind ≠ .raw) :
    (Replacement.node new).fitInto root (.node path) = .ok [new] := by
  cases hsite : Path.site? path root with
  | none =>
      simp only [Replacement.fitInto, hsite]
      rfl
  | some site =>
      refine Replacement.fitInto_of_toNode hnames hresolve hsite hkind ?_
      cases hslot : site.parent.kind.hasStatementSlot site.field with
      | false => rfl
      | true =>
          -- only statements stand where a statement is expected
          obtain ⟨⟨front, hparent⟩, slot, hmem, hn⟩ := Path.exists_slot_of_site? hresolve hsite
          have hstatement := (hread.resolve hparent).here.statements _ hmem hslot n hn
          rw [← hkind] at hstatement hraw
          exact congrArg Except.ok (Node.asStatement_of_kind hstatement hraw)

/-- A lone statement is fitted unchanged where one statement stands. -/
theorem Replacement.fitInto_of_statement
    (hnames : root.All Node.NamesFit)
    (hresolve : Path.resolve? path root = some n)
    (hsite : (Path.site? path root).any Site.holdsOneStatement = true)
    (hkind : new.kind = n.kind) :
    (Replacement.statements [new]).fitInto root (.node path) = .ok [new] := by
  cases hfound : Path.site? path root with
  | none => simp [hfound] at hsite
  | some site =>
      have hslot : site.parent.kind.hasStatementSlot site.field = true := by
        simp only [hfound, Option.any_some, Site.holdsOneStatement, Bool.and_eq_true] at hsite
        exact hsite.1
      refine Replacement.fitInto_of_toNode hnames hresolve hfound hkind ?_
      rw [hslot]
      rfl

end Fitting

theorem Pattern.kind_ne_raw_of_isEligible
    {p : Pattern} {top n : Node} {site : Option Site}
    (hfragment : p.fragment = .expression top)
    (htop : top.kind ≠ .raw)
    (heligible : p.isEligible site n = true) :
    n.kind ≠ .raw := by
  simp only [Pattern.isEligible, hfragment] at heligible
  split_ifs at heligible with hdeclares hvalue
  · simp only [Bool.and_eq_true, bne_iff_ne] at heligible
    exact heligible.2
  · rw [beq_iff_eq.mp heligible]
    exact htop

theorem Pattern.nodes_eq_singleton_of_isEligible
    {p : Pattern} {top n : Node} {site : Option Site}
    (htop : p.fragment.nodes.head? = some top) (heligible : p.isEligible site n = true) :
    p.fragment.nodes = [top] := by
  unfold Pattern.isEligible at heligible
  cases hfragment : p.fragment with
  | expression found =>
      rw [hfragment] at htop
      cases htop
      rfl
  | statements body =>
      rw [hfragment] at htop heligible
      simp only [Bool.and_eq_true, beq_iff_eq] at heligible
      obtain ⟨only, honly⟩ := List.length_eq_one_iff.mp heligible.1
      simp only [Fragment.nodes, honly, List.head?_cons, Option.some.injEq] at htop ⊢
      rw [htop]

/-! ## Every match in its own place -/

section Matches

variable {p : Pattern} {root : Node}

theorem Pattern.identity_keepsStructure_node
    {n : Node} {m : Match} {path : Path}
    (hp : p.Reproducible)
    (hread : root.Read)
    (hnames : root.All Node.NamesFit)
    (hregion : m.region = .node path)
    (hresolve : Path.resolve? path root = some n)
    (heligible : p.isEligible (Path.site? path root) n = true)
    (hfits : p.FitsNode n m.bindings) :
    ∃ body, p.identity.replacementFor root m = .ok body ∧
      Edit.KeepsStructure root ⟨m.region, body⟩ := by
  obtain ⟨top, htop, hunify⟩ := hfits
  have hnodes := Pattern.nodes_eq_singleton_of_isEligible htop heligible
  have hcandidate : ∀ c ∈ [n], c.WellFormed Numeral.value? := by
    intro c hc
    rw [List.mem_singleton.mp hc]
    exact Node.Read.wellFormed (hread.resolve hresolve) (hnames.resolve hresolve)
  have hsequence : unifySequence p.wildcards p.fragment.nodes [n] = (true, m.bindings) := by
    rw [hnodes, unifySequence_singleton]
    exact hunify
  obtain ⟨hsolves, -⟩ :=
    unifySequence_eq_true hp.collected hp.fields hp.blocks hcandidate hsequence
  unfold Rule.replacementFor
  rw [hregion]
  rcases Fragment.instantiate_of_solves hp.collected hsolves with
    ⟨top', new, c, hfragment, hc, hsame, hinstance⟩ | ⟨body, body', hfragment, hsame, hinstance⟩
  · -- raw text counts as a statement, but as an expression it would be wrapped into one
    cases hc
    have hkind := (Node.sameStructure_iff.mp hsame).1
    have hraw := Pattern.kind_ne_raw_of_isEligible hfragment (hp.notRaw _ hfragment) heligible
    refine ⟨[new], ?_, n, hresolve, ?_⟩
    · rw [Pattern.identity, hinstance]
      exact Replacement.fitInto_of_node hread hnames hresolve hkind hraw
    · simp [sameSequence, hsame]
  · have hsite : (Path.site? path root).any Site.holdsOneStatement = true := by
      simp only [Pattern.isEligible, hfragment, Bool.and_eq_true] at heligible
      exact heligible.2
    refine ⟨body', ?_, n, hresolve, hsame⟩
    rw [sameSequence_iff] at hsame
    cases hsame with
    | cons hnew hnil =>
        cases hnil
        rw [Pattern.identity, hinstance]
        exact Replacement.fitInto_of_statement hnames hresolve hsite
          (Node.sameStructure_iff.mp hnew).1

theorem Pattern.identity_keepsStructure_run
    {n : Node} {m : Match} {parent : Path} {field : Field} {start : Nat} {items body : List Node}
    (hp : p.Reproducible)
    (hbody : body ≠ [])
    (hread : root.Read)
    (hnames : root.All Node.NamesFit)
    (hregion : m.region = .run parent field start body.length)
    (hresolve : Path.resolve? parent root = some n)
    (hslot : n.slot? field = some (.list items))
    (hfragment : p.fragment = .statements body)
    (hunify : unifySequence p.wildcards body ((items.drop start).take body.length) =
      (true, m.bindings)) :
    ∃ body, p.identity.replacementFor root m = .ok body ∧
      Edit.KeepsStructure root ⟨m.region, body⟩ := by
  have hcandidate : ∀ c ∈ (items.drop start).take body.length, c.WellFormed Numeral.value? := by
    intro c hc
    have hitem : c ∈ items := List.mem_of_mem_drop (List.mem_of_mem_take hc)
    have hentry := Node.mem_slots_of_slot? hslot
    exact Node.Read.wellFormed ((hread.resolve hresolve).child hentry hitem)
      ((hnames.resolve hresolve).child hentry hitem)
  have hsequence : unifySequence p.wildcards p.fragment.nodes
      ((items.drop start).take body.length) = (true, m.bindings) := by
    rw [hfragment]
    exact hunify
  obtain ⟨⟨-, body', hinstance, hsame⟩, -⟩ :=
    unifySequence_eq_true hp.collected hp.fields hp.blocks hcandidate hsequence
  rw [hfragment] at hinstance
  unfold Rule.replacementFor
  rw [hregion]
  refine ⟨body', ?_, List.length_pos_of_ne_nil hbody, n, items, hresolve, hslot, hsame⟩
  rw [Pattern.identity, hfragment]
  simp only [Fragment.nodes] at hinstance
  rw [hinstance]
  rfl

/-- Every match of the pattern can be replaced by its own instance. -/
theorem Pattern.identity_keepsStructure
    {m : Match}
    (hp : p.Reproducible)
    (hnodes : p.fragment.nodes ≠ [])
    (hread : root.Read)
    (hnames : root.All Node.NamesFit)
    (hm : m ∈ p.findAll root) :
    ∃ body, p.identity.replacementFor root m = .ok body ∧
      Edit.KeepsStructure root ⟨m.region, body⟩ := by
  have hdistinct : root.DistinctFields :=
    Node.distinctFields_of_hasKindFields (hread.imp fun _ hn => hn.fields)
  cases hregion : m.region with
  | node path =>
      obtain ⟨n, hresolve, heligible, hfits⟩ :=
        (Node.exists_node_match_iff hdistinct).mp ⟨m, hm, hregion, rfl⟩
      rw [Option.or_none] at heligible
      rw [← hregion]
      exact Pattern.identity_keepsStructure_node hp hread hnames hregion hresolve heligible hfits
  | run parent field start length =>
      obtain ⟨n, items, body, hresolve, -, hslot, hfragment, rfl, -, hunify⟩ :=
        (Node.exists_run_match_iff hnodes hdistinct).mp ⟨m, hm, hregion, rfl⟩
      rw [hfragment] at hnodes
      rw [← hregion]
      exact Pattern.identity_keepsStructure_run hp hnodes hread hnames hregion hresolve hslot
        hfragment hunify

theorem Pattern.sameStructure_transform_identity
    (hp : p.Reproducible)
    (hnodes : p.fragment.nodes ≠ [])
    (hread : root.Read)
    (hnames : root.All Node.NamesFit) :
    ∃ result, p.identity.transform root = .ok result ∧
      result.tree.sameStructure root = true := by
  have hroot := Node.Read.wellFormed hread hnames
  have hselected : ∀ m ∈ selectDisjoint (p.identity.pattern.findAll root),
      ∃ body, p.identity.replacementFor root m = .ok body ∧
        Edit.KeepsStructure root ⟨m.region, body⟩ := by
    intro m hm
    exact Pattern.identity_keepsStructure hp hnodes hread hnames
      ((selectFrom_sublist [] _).subset hm)
  obtain ⟨edits, hedits⟩ := Rule.exists_editsFor_iff.mpr fun m hm =>
    (hselected m hm).imp fun _ hbody => hbody.1
  have hkeeps : ∀ e ∈ edits, e.KeepsStructure root := by
    intro e he
    obtain ⟨m, hm, hregion, hbody⟩ := Rule.exists_match_of_mem_editsFor hedits he
    obtain ⟨body, hfound, hkeeps⟩ := hselected m hm
    cases hfound.symm.trans hbody
    rw [← hregion] at hkeeps
    exact hkeeps
  rw [Rule.transform_eq_overwrite p.identity
    (Node.distinctFields_of_hasKindFields hroot.fields), hedits]
  exact ⟨_, rfl, Node.sameStructure_overwrite hroot.exact hkeeps⟩

end Matches

theorem Pattern.hasKindFields_of_compile
    {text : String} {p : Pattern}
    (hcompile : Pattern.compile text = .ok p) :
    ∀ n ∈ p.fragment.nodes, n.All Node.HasKindFields := by
  obtain ⟨hparse, -⟩ := Pattern.compile_eq_ok_iff.mp hcompile
  intro n hn
  exact ((Fragment.read_of_parse hparse).1 n hn).imp fun _ hread => hread.fields

theorem Rule.compile_identity
    {text left right : String} {p : Pattern}
    (hsplit : Rule.split? text = some (left, right))
    (hsame : Text.trim left = Text.trim right)
    (hcompile : Pattern.compile (Text.trim left) = .ok p) :
    Rule.compile text = .ok p.identity := by
  obtain ⟨hparse, hcollect⟩ := Pattern.compile_eq_ok_iff.mp hcompile
  have hpattern : Pattern.compile left = .ok p :=
    Pattern.compile_eq_ok_iff.mpr
      ⟨Fragment.parse_of_trim_eq (Text.trim_trim left) hparse, hcollect⟩
  have htemplate : Fragment.parse right .template = .ok p.fragment :=
    Fragment.parse_of_trim_eq ((Text.trim_trim left).trans hsame) hparse
  have hfields := Pattern.hasKindFields_of_compile hcompile
  have hnames : (referencedNames p.fragment.nodes).find?
      (fun name => !p.wildcards.contains name) = none := by
    rw [List.find?_eq_none]
    intro name hname
    simp [(Wildcards.contains_iff_mem_referencedNames hcollect hfields).mpr hname]
  simp only [Rule.compile, hsplit, hpattern, htemplate, bind, Except.bind, hnames]
  rfl

/-- A rule whose two halves are the same text keeps every program: it compiles, it applies to every
tree that was read and whose slots for names and bindings hold what they may hold, and the tree
keeps its structure. -/
theorem Rule.transform_of_equal_halves
    {text left right source : String} {p : Pattern} {root : Node}
    (hsplit : Rule.split? text = some (left, right))
    (hsame : Text.trim left = Text.trim right)
    (hcompile : Pattern.compile (Text.trim left) = .ok p)
    (hblocks : ∀ n ∈ p.fragment.nodes, n.All fun m => ¬ m.IsEmptyBlock)
    (hraw : ∀ top, p.fragment = .expression top → top.kind ≠ .raw)
    (hparse : parse source = .ok root)
    (hnames : root.All Node.NamesFit) :
    ∃ rule result, Rule.compile text = .ok rule ∧ rule.transform root = .ok result ∧
      result.tree.sameStructure root = true := by
  have hp : p.Reproducible := {
    collected := (Pattern.compile_eq_ok_iff.mp hcompile).2
    fields := Pattern.hasKindFields_of_compile hcompile
    blocks := hblocks
    notRaw := hraw }
  obtain ⟨result, hresult, hstructure⟩ := Pattern.sameStructure_transform_identity hp
    (Pattern.nodes_ne_nil_of_compile hcompile) (read_of_parse hparse) hnames
  exact ⟨p.identity, result, Rule.compile_identity hsplit hsame hcompile, hresult, hstructure⟩

/-- A call with any one argument, in a program with two of them. -/
theorem Rule.transform_of_equal_halves_call :
    ∃ rule root result, Rule.compile "f(a)-> f(a)" = .ok rule ∧ parse "f(x);f(y)" = .ok root ∧
      (selectDisjoint (rule.pattern.findAll root)).length = 2 ∧
      rule.transform root = .ok result ∧ result.tree.sameStructure root = true := by
  have hrun :
      (match Pattern.compile (Text.trim "f(a)"), parse "f(x);f(y)" with
        | .ok p, .ok root =>
          decide (∀ n ∈ p.fragment.nodes, n.All fun m => ¬ m.IsEmptyBlock) &&
            p.fragment.nodes.all (fun n => n.kind != .raw) &&
            decide (root.All Node.NamesFit) && (selectDisjoint (p.findAll root)).length == 2
        | _, _ => false) = true := by
    decide +kernel
  split at hrun
  next p root hp hroot =>
    simp only [Bool.and_eq_true, decide_eq_true_iff, beq_iff_eq] at hrun
    obtain ⟨⟨⟨hblocks, hraw⟩, hnames⟩, hmatches⟩ := hrun
    have hnotRaw : ∀ top, p.fragment = .expression top → top.kind ≠ .raw := by
      intro top htop
      rw [htop] at hraw
      simpa [Fragment.nodes] using hraw
    have hsplit : Rule.split? "f(a)-> f(a)" = some ("f(a)", " f(a)") := by decide +kernel
    have hsame : Text.trim "f(a)" = Text.trim " f(a)" := by decide +kernel
    obtain ⟨rule, result, hrule, hresult, hstructure⟩ :=
      Rule.transform_of_equal_halves hsplit hsame hp hblocks hnotRaw hroot hnames
    cases hrule.symm.trans (Rule.compile_identity hsplit hsame hp)
    exact ⟨p.identity, root, result, hrule, hroot, hmatches, hresult, hstructure⟩
  next => contradiction

end Graft
