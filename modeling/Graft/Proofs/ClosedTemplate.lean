import Graft.Proofs.Identity

/-!
# Closed templates

Every match of a compiled pattern binds exactly the wildcards of the pattern, each to what its
role asks for.  A compiled rule has no other wildcards in its template.  So a template that can be
instantiated stands for its result: every wildcard has been replaced by what it is bound to, and
everything that was copied is no wildcard.
-/

namespace Graft

/-! ## What a match binds -/

/-- A match in a slot is a run of the slot's own nodes, or was found in one of them. -/
theorem Slot.mem_findMatches_cases
    {p : Pattern} {site : Site} {slot : Slot} {m : Match}
    (hm : m ∈ slot.findMatches p site) :
    (∃ start items, items ⊆ slot.children ∧
        site.parent.kind.hasStatementList site.field = true ∧
        p.matchRun? site.field start items = some m) ∨
      ∃ c ∈ slot.children, ∃ step, ∃ inner ∈ c.findMatches p (some site), m = inner.under step := by
  cases slot with
  | node c =>
      obtain ⟨inner, hinner, rfl⟩ := List.mem_map.mp (by simpa [Slot.findMatches] using hm)
      exact Or.inr ⟨c, by simp [Slot.children], _, inner, hinner, rfl⟩
  | list items =>
      rw [Slot.findMatches, mem_findMatchesInNodes_iff] at hm
      obtain ⟨i, c, hc, ⟨hlist, hrun⟩ | ⟨inner, hinner, rfl⟩⟩ := hm
      · exact Or.inl ⟨_, _, List.drop_subset i items, hlist, hrun⟩
      · exact Or.inr ⟨c, List.mem_of_getElem? hc, _, inner, hinner, rfl⟩
  | absent => simp [Slot.findMatches] at hm
  | scalar value => simp [Slot.findMatches] at hm

/-- Every match, wherever it is found, is a unification of the whole pattern with nodes of the
tree. -/
theorem Node.exists_unifySequence_of_mem_findMatches
    {p : Pattern} {site : Option Site} {n : Node} {m : Match}
    (hm : m ∈ n.findMatches p site) :
    ∃ candidate, unifySequence p.wildcards p.fragment.nodes candidate = (true, m.bindings) ∧
      ∀ P : Node → Prop, n.All P → ∀ c ∈ candidate, c.All P := by
  induction n using Node.childInduction generalizing site m with
  | hparent n ih =>
      rw [Node.findMatches_eq, List.mem_append, Option.mem_toList,
        mem_findMatchesInSlots_iff] at hm
      rcases hm with hhere | ⟨entry, hentry, hslot⟩
      · obtain ⟨heligible, ⟨top, htop, hunify⟩, -⟩ := Pattern.matchNode?_eq_some_iff.mp hhere
        have hnodes := Pattern.nodes_eq_singleton_of_isEligible htop heligible
        refine ⟨[n], ?_, by simp⟩
        rw [hnodes, unifySequence_singleton]
        exact hunify
      · rcases Slot.mem_findMatches_cases hslot with
          ⟨start, items, hitems, -, hrun⟩ | ⟨c, hc, step, inner, hinner, rfl⟩
        · obtain ⟨body, hfragment, -, -, hunify, -⟩ := Pattern.matchRun?_eq_some hrun
          rw [hfragment]
          refine ⟨_, hunify, ?_⟩
          intro P hall c hc
          exact hall.child hentry (hitems (List.mem_of_mem_take hc))
        · obtain ⟨candidate, hunify, hcandidate⟩ := ih entry hentry c hc hinner
          exact ⟨candidate, hunify, fun P hall => hcandidate P (hall.child hentry hc)⟩

/-- An empty block that was read has nothing below it. -/
theorem Node.wildcardUses_of_isEmptyBlock
    {n : Node}
    (hread : n.ReadHere) (hempty : n.IsEmptyBlock) :
    n.wildcardUses = [] := by
  obtain ⟨hkind, hbody⟩ := hempty
  have hfields : n.fields = [.body] := by
    have hperm := hread.fields
    rw [Node.HasKindFields, hkind] at hperm
    exact List.perm_singleton.mp hperm
  obtain ⟨⟨field, slot⟩, hslots, hfield⟩ := List.map_eq_singleton_iff.mp hfields
  obtain rfl : field = .body := hfield
  have hmem : (Field.body, slot) ∈ n.slots := by simp [hslots]
  obtain ⟨items, rfl⟩ : ∃ items, slot = .list items :=
    hread.lists _ hmem (by rw [hkind]; rfl)
  have hitems : items = [] := by
    simpa [Node.list, Node.slot?, hslots] using hbody
  have hname : n.wildcardName? = none := by
    simp [Node.wildcardName?, Node.name?, hkind]
  rw [Node.wildcardUses_eq hname, hslots, hitems]
  rfl

theorem Pattern.covers_of_unifySequence
    {text : String} {p : Pattern} {candidate : List Node} {bs : Bindings}
    (hcompile : Pattern.compile text = .ok p)
    (hunify : unifySequence p.wildcards p.fragment.nodes candidate = (true, bs)) :
    bs.Covers p.wildcards := by
  obtain ⟨hparse, hcollect⟩ := Pattern.compile_eq_ok_iff.mp hcompile
  obtain ⟨-, found, hfound, hbind⟩ := unifySequence_eq_iff.mp hunify
  have hadmits := Wildcards.admits_of_collect hcollect
  have hproper := Wildcards.proper_of_collect hcollect
  have hblocks : ∀ n ∈ p.fragment.nodes, n.All fun m => m.IsEmptyBlock → m.wildcardUses = [] :=
    fun n hn => ((Fragment.read_of_parse hparse).1 n hn).imp
      fun _ hread => Node.wildcardUses_of_isEmptyBlock hread
  have huses : found.map captureUse = wildcardUsesInNodes false p.fragment.nodes :=
    map_captureUse_of_capturesInNodes
      (fun n hn hadmits _ _ => Node.map_captureUse_of_captures hproper (hblocks n hn) hadmits)
      hadmits (restName?_getLast_eq_none hadmits).symm hfound
  exact Bindings.covers_of_captures hcollect huses hbind

/-! ## What a template stands for -/

mutual

/-- The nodes that a node of a template stands for.  A wildcard stands for what it is bound to; any
other node stands for a copy of itself. -/
inductive Node.StandsFor (s : Bindings) : Node → List Node → Prop
  | value {t c : Node} {name : String} :
      t.wildcardName? = some name → s.get? name = some (.node c) → Node.StandsFor s t [c]
  | rest {t : Node} {cs : List Node} {name : String} :
      t.wildcardName? = some name ∨ t.restName? = some name →
      s.get? name = some (.rest cs) → Node.StandsFor s t cs
  | copy {t : Node} {slots : List (Field × Slot)} :
      t.wildcardName? = none → SlotsStandFor s t.kind t.slots slots →
      Node.StandsFor s t [.mk t.kind t.span slots]

/-- The called function stands for itself, whatever its name. -/
inductive Slot.StandsFor (s : Bindings) : Kind → Field → Slot → Slot → Prop
  | callee {parent : Kind} {field : Field} {t : Node} :
      isDirectCallee parent field t = true → Slot.StandsFor s parent field (.node t) (.node t)
  | node {parent : Kind} {field : Field} {t c : Node} :
      isDirectCallee parent field t = false → Node.StandsFor s t [c] →
      Slot.StandsFor s parent field (.node t) (.node c)
  | list {parent : Kind} {field : Field} {ts cs : List Node} :
      NodesStandFor s ts cs → Slot.StandsFor s parent field (.list ts) (.list cs)
  | absent {parent : Kind} {field : Field} : Slot.StandsFor s parent field .absent .absent
  | scalar {parent : Kind} {field : Field} (value : Scalar) :
      Slot.StandsFor s parent field (.scalar value) (.scalar value)

inductive SlotsStandFor (s : Bindings) :
    Kind → List (Field × Slot) → List (Field × Slot) → Prop
  | nil {parent : Kind} : SlotsStandFor s parent [] []
  | cons {parent : Kind} {field : Field} {slot slot' : Slot} {rest rest' : List (Field × Slot)} :
      Slot.StandsFor s parent field slot slot' → SlotsStandFor s parent rest rest' →
      SlotsStandFor s parent ((field, slot) :: rest) ((field, slot') :: rest')

inductive NodesStandFor (s : Bindings) : List Node → List Node → Prop
  | nil : NodesStandFor s [] []
  | cons {t : Node} {ts cs cs' : List Node} :
      Node.StandsFor s t cs → NodesStandFor s ts cs' → NodesStandFor s (t :: ts) (cs ++ cs')

end

def Fragment.StandsFor (s : Bindings) : Fragment → Replacement → Prop
  | .expression t, .node c => t.StandsFor s [c]
  | .statements ts, .statements cs => NodesStandFor s ts cs
  | _, _ => False

section Instances

variable {w : Wildcards} {s : Bindings}

/-- Only a wildcard is replaced, and by what it is bound to. -/
theorem Node.standsFor_of_expansion
    {t : Node} {expansion : Expansion}
    (hcovers : s.Covers w) (hproper : w.Proper) (hexpansion : t.expansion? s = some expansion) :
    t.StandsFor s expansion.nodes := by
  obtain ⟨n, name, b, hname, hb, hnodes, hplace⟩ := Node.expansion?_eq_some hexpansion
  have hwildcard : n.wildcardName? = some name :=
    Option.filter_eq_some_iff.mpr ⟨hname, hproper name _ (hcovers.role hb)⟩
  rw [hnodes]
  cases b with
  | node c =>
      rcases hplace with rfl | ⟨-, -, hrole⟩
      · exact .value hwildcard hb
      · cases hrole
  | rest cs =>
      refine .rest ?_ hb
      rcases hplace with rfl | ⟨hkind, hchild, -⟩
      · exact Or.inl hwildcard
      · exact Or.inr (Node.restName?_eq_some_iff.mpr ⟨hkind, n, hchild, hwildcard⟩)

/-- A node that is not replaced is no wildcard, because every wildcard is bound. -/
theorem Node.wildcardName?_of_expansion_eq_none
    {t : Node}
    (hcovers : s.Covers w)
    (hnames : ∀ name ∈ t.wildcardNames, w.contains name = true)
    (hexpansion : t.expansion? s = none) :
    t.wildcardName? = none := by
  by_contra hsome
  obtain ⟨name, hname⟩ := Option.ne_none_iff_exists'.mp hsome
  have hcontains : w.contains name = true := by
    apply hnames
    simp [Node.wildcardNames_of_wildcardName hname]
  obtain ⟨role, hrole⟩ := Option.isSome_iff_exists.mp hcontains
  have hname : t.name? = some name := (Option.filter_eq_some_iff.mp hname).1
  cases role with
  | value =>
      have hvalue := Wildcards.valueName?_eq_some_iff.mpr ⟨hname, hrole⟩
      obtain ⟨c, -, hc⟩ := Node.expansion?_of_valueName hcovers hvalue
      rw [hexpansion] at hc
      cases hc
  | rest =>
      obtain ⟨cs, hcs⟩ := hcovers.rest hrole
      simp [Node.expansion?, hname, hcs] at hexpansion

theorem nodesStandFor_of_expandNodes
    {ts cs : List Node}
    (ih : ∀ t ∈ ts, (∀ name ∈ t.wildcardNames, w.contains name = true) →
      ∀ expansion, t.expand s = .ok expansion → t.StandsFor s expansion.nodes)
    (hnames : ∀ name ∈ wildcardNamesInNodes ts, w.contains name = true)
    (hexpand : expandNodes s ts = .ok cs) :
    NodesStandFor s ts cs := by
  induction ts generalizing cs with
  | nil =>
      cases hexpand
      exact .nil
  | cons t ts ihts =>
      obtain ⟨first, others, hfirst, hothers, rfl⟩ := expandNodes_cons_eq_ok_iff.mp hexpand
      rw [wildcardNamesInNodes, List.forall_mem_append] at hnames
      rw [List.forall_mem_cons] at ih
      exact .cons (ih.1 hnames.1 first hfirst) (ihts ih.2 hnames.2 hothers)

theorem Slot.standsFor_of_expand
    {parent : Node} {field : Field} {slot slot' : Slot}
    (ih : ∀ t ∈ slot.children, (∀ name ∈ t.wildcardNames, w.contains name = true) →
      ∀ expansion, t.expand s = .ok expansion → t.StandsFor s expansion.nodes)
    (hnames : ∀ name ∈ slot.wildcardNames parent.kind field, w.contains name = true)
    (hexpand : slot.expand s parent field = .ok slot') :
    slot.StandsFor s parent.kind field slot' := by
  cases slot with
  | node t =>
      by_cases hcallee : isDirectCallee parent.kind field t = true
      · simp only [Slot.expand, hcallee, if_true] at hexpand
        cases hexpand
        exact .callee hcallee
      · rw [Bool.not_eq_true] at hcallee
        obtain ⟨c, hc, -, rfl⟩ := (Slot.expand_node_eq_ok_iff hcallee).mp hexpand
        simp only [Slot.wildcardNames, hcallee, Bool.false_eq_true, if_false] at hnames
        exact .node hcallee (ih t (by simp [Slot.children]) hnames _ hc)
  | list ts =>
      obtain ⟨cs, hcs, -, rfl⟩ := Slot.expand_list_eq_ok_iff.mp hexpand
      exact .list (nodesStandFor_of_expandNodes ih hnames hcs)
  | absent =>
      cases hexpand
      exact .absent
  | scalar value =>
      cases hexpand
      exact .scalar value

theorem slotsStandFor_of_expandSlots
    {parent : Node} {slots slots' : List (Field × Slot)}
    (ih : ∀ entry ∈ slots, ∀ t ∈ entry.2.children,
      (∀ name ∈ t.wildcardNames, w.contains name = true) →
      ∀ expansion, t.expand s = .ok expansion → t.StandsFor s expansion.nodes)
    (hnames : ∀ name ∈ wildcardNamesInSlots parent.kind slots, w.contains name = true)
    (hexpand : expandSlots s parent slots = .ok slots') :
    SlotsStandFor s parent.kind slots slots' := by
  induction slots generalizing slots' with
  | nil =>
      cases hexpand
      exact .nil
  | cons entry rest ihrest =>
      obtain ⟨first, others, hfirst, hothers, rfl⟩ := expandSlots_cons_eq_ok_iff.mp hexpand
      rw [wildcardNamesInSlots, List.forall_mem_append] at hnames
      rw [List.forall_mem_cons] at ih
      exact .cons (Slot.standsFor_of_expand ih.1 hnames.1 hfirst) (ihrest ih.2 hnames.2 hothers)

theorem Node.standsFor_of_expand
    {t : Node}
    (hcovers : s.Covers w)
    (hproper : w.Proper)
    (hnames : ∀ name ∈ t.wildcardNames, w.contains name = true)
    (expansion : Expansion)
    (hexpand : t.expand s = .ok expansion) :
    t.StandsFor s expansion.nodes := by
  induction t using Node.childInduction generalizing expansion with
  | hparent t ih =>
      cases hexpansion : t.expansion? s with
      | some found =>
          rw [Node.expand_of_expansion hexpansion] at hexpand
          cases hexpand
          exact Node.standsFor_of_expansion hcovers hproper hexpansion
      | none =>
          have hname := Node.wildcardName?_of_expansion_eq_none hcovers hnames hexpansion
          obtain ⟨slots, hslots, rfl⟩ := (Node.expand_eq_ok_iff hexpansion).mp hexpand
          rw [Node.wildcardNames_eq hname] at hnames
          exact .copy hname (slotsStandFor_of_expandSlots ih hnames hslots)

theorem Fragment.standsFor_of_instantiate
    {template : Fragment} {r : Replacement}
    (hcovers : s.Covers w)
    (hproper : w.Proper)
    (hnames : ∀ name ∈ referencedNames template.nodes, w.contains name = true)
    (hinstance : template.instantiate s = .ok r) :
    template.StandsFor s r := by
  have hnames : ∀ name ∈ wildcardNamesInNodes template.nodes, w.contains name = true := by
    intro name hname
    exact hnames name (List.mem_eraseDups.mpr hname)
  cases template with
  | expression t =>
      simp only [Fragment.instantiate, bind_eq_ok_iff, Expansion.single_eq_ok_iff] at hinstance
      obtain ⟨expansion, hexpand, c, rfl, hr⟩ := hinstance
      cases hr
      simp only [Fragment.nodes, wildcardNamesInNodes, List.append_nil] at hnames
      exact Node.standsFor_of_expand hcovers hproper hnames _ hexpand
  | statements ts =>
      simp only [Fragment.instantiate, bind_eq_ok_iff] at hinstance
      obtain ⟨cs, hcs, hr⟩ := hinstance
      cases hr
      exact nodesStandFor_of_expandNodes
        (fun t _ => Node.standsFor_of_expand hcovers hproper) hnames hcs

end Instances

/-! ## Compiled rules -/

/-- A rule compiles when its halves do and its template uses no wildcard of its own. -/
theorem Rule.compile_eq_ok
    {text : String} {rule : Rule}
    (hcompile : Rule.compile text = .ok rule) :
    ∃ left right, Rule.split? text = some (left, right) ∧
      Pattern.compile left = .ok rule.pattern ∧
      Fragment.parse right .template = .ok rule.template ∧
      ∀ name ∈ referencedNames rule.template.nodes,
        rule.pattern.wildcards.contains name = true := by
  unfold Rule.compile at hcompile
  cases hsplit : Rule.split? text with
  | none =>
      rw [hsplit] at hcompile
      cases hcompile
  | some halves =>
      obtain ⟨left, right⟩ := halves
      rw [hsplit] at hcompile
      simp only [bind_eq_ok_iff] at hcompile
      obtain ⟨pattern, hpattern, template, htemplate, hnames⟩ := hcompile
      split at hnames
      next => cases hnames
      next hnone =>
        cases hnames
        refine ⟨left, right, rfl, hpattern, htemplate, ?_⟩
        intro name hname
        simpa using List.find?_eq_none.mp hnone name hname

/-- Every match of a compiled rule, in any tree, binds the wildcards of the rule and nothing else:
value wildcards to one node and rest wildcards to a sequence.  So the template leaves none of its
wildcards in what it is instantiated to. -/
theorem Rule.covers_and_standsFor_of_mem_findAll
    {text : String} {rule : Rule} {root : Node} {m : Match}
    (hcompile : Rule.compile text = .ok rule) (hm : m ∈ rule.pattern.findAll root) :
    m.bindings.Covers rule.pattern.wildcards ∧
      ∀ r, rule.template.instantiate m.bindings = .ok r →
        rule.template.StandsFor m.bindings r := by
  obtain ⟨left, right, -, hpattern, -, hnames⟩ := Rule.compile_eq_ok hcompile
  obtain ⟨candidate, hunify, -⟩ := Node.exists_unifySequence_of_mem_findMatches hm
  have hcovers := Pattern.covers_of_unifySequence hpattern hunify
  have hproper := Wildcards.proper_of_collect (Pattern.compile_eq_ok_iff.mp hpattern).2
  exact ⟨hcovers, fun r => Fragment.standsFor_of_instantiate hcovers hproper hnames⟩

/-- The called function keeps its name, and the argument of that name is replaced. -/
theorem Rule.covers_and_standsFor_of_call :
    ∃ rule root m r, Rule.compile "f(a, ...b) -> a(g(b), a)" = .ok rule ∧
      parse "f(1, x, y);" = .ok root ∧ m ∈ rule.pattern.findAll root ∧
      rule.template.instantiate m.bindings = .ok r ∧
      m.bindings.Covers rule.pattern.wildcards ∧ rule.template.StandsFor m.bindings r := by
  have hrun :
      (match Rule.compile "f(a, ...b) -> a(g(b), a)", parse "f(1, x, y);" with
        | .ok rule, .ok root =>
          (rule.pattern.findAll root).any fun m => (rule.template.instantiate m.bindings).isOk
        | _, _ => false) = true := by
    decide +kernel
  split at hrun
  next rule root hrule hroot =>
    obtain ⟨m, hm, hok⟩ := List.any_eq_true.mp hrun
    cases hinstance : rule.template.instantiate m.bindings with
    | error cause => simp [hinstance, Except.isOk, Except.toBool] at hok
    | ok r =>
        obtain ⟨hcovers, hstands⟩ := Rule.covers_and_standsFor_of_mem_findAll hrule hm
        exact ⟨rule, root, m, r, hrule, hroot, hm, hinstance, hcovers, hstands r hinstance⟩
  next => contradiction

end Graft
