import Graft.Proofs.Renaming
import Mathlib.Logic.Equiv.Basic

/-!
# A rule with renamed wildcards

The names of wildcards carry no meaning of their own.  Exchanging the letters in both halves of a
rule that compiles gives a rule that compiles, finds the same places with its bindings renamed, and
makes the same tree.  Code that is captured is never read for wildcards, so the letters may occur in
the program as well.
-/

namespace Graft

variable {σ : Equiv.Perm Letter}

/-! ## Finding -/

section Find

variable {p p' : Pattern} {f : Match → Match}

mutual

/-- Two patterns that differ at each place by a change of the match differ so in all matches. -/
theorem Node.findMatches_map
    (hunder : ∀ step m, f (m.under step) = (f m).under step)
    (hnode : ∀ site n, p'.matchNode? site n = (p.matchNode? site n).map f)
    (hrun : ∀ field start ns, p'.matchRun? field start ns = (p.matchRun? field start ns).map f)
    (site : Option Site) :
    (n : Node) →
      n.findMatches p' site = (n.findMatches p site).map f
  | .mk kind span slots => by
    rw [Node.findMatches, Node.findMatches, hnode, List.map_append,
      findMatchesInSlots_map hunder hnode hrun]
    cases p.matchNode? site (.mk kind span slots) <;> rfl
termination_by structural n => n

theorem Slot.findMatches_map
    (hunder : ∀ step m, f (m.under step) = (f m).under step)
    (hnode : ∀ site n, p'.matchNode? site n = (p.matchNode? site n).map f)
    (hrun : ∀ field start ns, p'.matchRun? field start ns = (p.matchRun? field start ns).map f)
    (site : Site) :
    (slot : Slot) →
      slot.findMatches p' site = (slot.findMatches p site).map f
  | .node n => by
    rw [Slot.findMatches, Slot.findMatches, n.findMatches_map hunder hnode hrun, List.map_map,
      List.map_map]
    exact List.map_congr_left fun m _ => (hunder _ m).symm
  | .list ns => findMatchesInNodes_map hunder hnode hrun site 0 ns
  | .absent => rfl
  | .scalar _ => rfl
termination_by structural slot => slot

theorem findMatchesInSlots_map
    (hunder : ∀ step m, f (m.under step) = (f m).under step)
    (hnode : ∀ site n, p'.matchNode? site n = (p.matchNode? site n).map f)
    (hrun : ∀ field start ns, p'.matchRun? field start ns = (p.matchRun? field start ns).map f)
    (parent : Node) :
    (slots : List (Field × Slot)) →
      findMatchesInSlots p' parent slots = (findMatchesInSlots p parent slots).map f
  | [] => rfl
  | (field, slot) :: rest => by
    rw [findMatchesInSlots, findMatchesInSlots, slot.findMatches_map hunder hnode hrun,
      findMatchesInSlots_map hunder hnode hrun parent rest, List.map_append]
termination_by structural slots => slots

theorem findMatchesInNodes_map
    (hunder : ∀ step m, f (m.under step) = (f m).under step)
    (hnode : ∀ site n, p'.matchNode? site n = (p.matchNode? site n).map f)
    (hrun : ∀ field start ns, p'.matchRun? field start ns = (p.matchRun? field start ns).map f)
    (site : Site) (start : Nat) :
    (ns : List Node) →
      findMatchesInNodes p' site start ns = (findMatchesInNodes p site start ns).map f
  | [] => rfl
  | n :: rest => by
    rw [findMatchesInNodes, findMatchesInNodes, n.findMatches_map hunder hnode hrun,
      findMatchesInNodes_map hunder hnode hrun site (start + 1) rest, hrun, List.map_append,
      List.map_append, List.map_map, List.map_map]
    congr 2
    · split
      · cases p.matchRun? site.field start (n :: rest) <;> rfl
      · rfl
    · exact List.map_congr_left fun m _ => (hunder _ m).symm
termination_by structural ns => ns

end

end Find

namespace Pattern

variable {p : Pattern}

theorem matchNode?_rename
    (hcollect : Wildcards.collect p.fragment.nodes = .ok p.wildcards)
    (site : Option Site) (n : Node) :
    (p.rename σ).matchNode? site n = (p.matchNode? site n).map (Match.rename σ) := by
  rw [matchNode?, matchNode?, isEligible_rename, fitNode?_rename hcollect]
  split
  · rw [Option.map_map, Option.map_map]
    rfl
  · rfl

theorem matchRun?_rename
    (hcollect : Wildcards.collect p.fragment.nodes = .ok p.wildcards)
    (field : Field) (start : Nat) (items : List Node) :
    (p.rename σ).matchRun? field start items =
      (p.matchRun? field start items).map (Match.rename σ) := by
  obtain ⟨fragment, w⟩ := p
  cases fragment with
  | expression root => rfl
  | statements body =>
      have hadmits := Wildcards.admits_of_collect hcollect
      have hlength : (renameNodes σ body).length = body.length := by
        rw [renameNodes_eq_map, List.length_map]
      have hunify := unifySequence_rename (σ := σ) hadmits (items.take body.length) []
      rw [Bindings.rename_nil] at hunify
      simp only [Fragment.nodes] at hunify
      simp only [matchRun?, rename, Fragment.rename, hlength, hunify, Prod.map_fst, Prod.map_snd,
        id_eq]
      cases (unifySequence w body (items.take body.length)).1 <;>
        cases (items.take body.length).head? <;>
          cases (items.take body.length).getLast? <;> rfl

/-- The same places are found, with the bindings renamed. -/
theorem findAll_rename
    (hcollect : Wildcards.collect p.fragment.nodes = .ok p.wildcards)
    (root : Node) :
    (p.rename σ).findAll root = (p.findAll root).map (Match.rename σ) :=
  root.findMatches_map (fun _ _ => rfl) (matchNode?_rename hcollect) (matchRun?_rename hcollect)
    none

end Pattern

/-! ## Instantiating -/

def EditError.rename (σ : Equiv.Perm Letter) : EditError → EditError
  | restOutsideList name => .restOutsideList (renameName σ name)
  | e => e

def Expansion.rename (σ : Equiv.Perm Letter) : Expansion → Expansion
  | one n => .one n
  | many name ns => .many (renameName σ name) ns

theorem Expansion.nodes_rename (e : Expansion) : (e.rename σ).nodes = e.nodes := by
  cases e <;> rfl

theorem Expansion.single_rename (e : Expansion) :
    (e.rename σ).single = e.single.mapError (EditError.rename σ) := by
  cases e <;> rfl

theorem mapError_bind
    {ε α β γ : Type} {f : ε → ε} {g : α → β} {next : α → Except ε γ} {next' : β → Except ε γ}
    (x : Except ε α)
    (hnext : ∀ a, next' (g a) = (next a).mapError f) :
    ((x.map g).mapError f >>= next') = (x >>= next).mapError f := by
  cases x with
  | error e => rfl
  | ok a => exact hnext a

theorem mapError_bind_same
    {ε α γ : Type} {f : ε → ε} {next next' : α → Except ε γ}
    (x : Except ε α)
    (hnext : ∀ a, next' a = (next a).mapError f) :
    (x.mapError f >>= next') = (x >>= next).mapError f := by
  cases x with
  | error e => rfl
  | ok a => exact hnext a

/-- A step whose errors name no wildcard. -/
theorem bind_mapError_of_same
    {ε α γ : Type} {f : ε → ε} {next next' : α → Except ε γ} {x : Except ε α}
    (hx : x.mapError f = x) (hnext : ∀ a, next' a = (next a).mapError f) :
    (x >>= next') = (x >>= next).mapError f := by
  rw [← mapError_bind_same x hnext, hx]

theorem checkSlot_rename (parent : Node) (field : Field) (child : Node) :
    (checkSlot parent field child).mapError (EditError.rename σ) =
      checkSlot parent field child := by
  rw [checkSlot]
  split <;> rfl

theorem forM_checkSlot_rename (parent : Node) (field : Field) (children : List Node) :
    (children.forM (checkSlot parent field)).mapError (EditError.rename σ) =
      children.forM (checkSlot parent field) := by
  induction children with
  | nil => rfl
  | cons child rest ih =>
      rw [List.forM_eq_forM, List.forM_cons]
      exact (bind_mapError_of_same (checkSlot_rename parent field child) fun _ => ih.symm).symm

theorem Bindings.bound?_rename (bs : Bindings) (n : Node) :
    (bs.rename σ).bound? (n.rename σ) = (bs.bound? n).map (Prod.map (renameName σ) id) := by
  rw [bound?, n.name?_rename, bound?]
  cases n.name? with
  | none => rfl
  | some name =>
      simp only [Option.map_some, Option.bind_some, get?_rename]
      cases bs.get? name <;> rfl

theorem Expansion.ofEntry_rename (entry : String × Binding) :
    ofEntry (entry.map (renameName σ) id) = (ofEntry entry).rename σ := by
  obtain ⟨name, captured⟩ := entry
  cases captured <;> rfl

theorem Expansion.ofRest?_rename (entry : String × Binding) :
    ofRest? (entry.map (renameName σ) id) = (ofRest? entry).map (rename σ) := by
  obtain ⟨name, captured⟩ := entry
  cases captured <;> rfl

theorem Node.expansion?_rename (bs : Bindings) (n : Node) :
    (n.rename σ).expansion? (bs.rename σ) = (n.expansion? bs).map (Expansion.rename σ) := by
  rw [expansion?_eq, expansion?_eq, bs.bound?_rename, kind_rename]
  cases bs.bound? n with
  | some entry => exact congrArg some (Expansion.ofEntry_rename entry)
  | none =>
      dsimp only [Option.map_none]
      split
      next hkind =>
        have hname : n.wildcardName? = none := by
          rcases hkind with hkind | hkind <;> simp [wildcardName?, name?, hkind]
        rw [child?_rename hname (by decide)]
        cases n.child? .argument with
        | none => rfl
        | some argument =>
            simp only [Option.map_some, Option.bind_some, bs.bound?_rename]
            cases bs.bound? argument with
            | none => rfl
            | some entry => exact Expansion.ofRest?_rename entry
      next => rfl

/-- A wildcard that is bound does not stay in what a template becomes. -/
theorem Node.wildcardName?_of_expansion?_eq_none
    {bs : Bindings} {n : Node}
    (hbound : ∀ name ∈ n.wildcardNames, (bs.get? name).isSome)
    (hexpansion : n.expansion? bs = none) :
    n.wildcardName? = none := by
  by_contra hsome
  obtain ⟨name, hname⟩ := Option.ne_none_iff_exists'.mp hsome
  obtain ⟨hself, -⟩ := Option.filter_eq_some_iff.mp hname
  rw [Node.wildcardNames_of_wildcardName hname] at hbound
  obtain ⟨b, hb⟩ := Option.isSome_iff_exists.mp (hbound name List.mem_cons_self)
  simp [expansion?_eq, Bindings.bound?, hself, hb] at hexpansion

theorem Node.expand_eq
    {bs : Bindings} {n : Node}
    (hexpansion : n.expansion? bs = none) :
    n.expand bs = do return .one (.mk n.kind n.span (← expandSlots bs n n.slots)) := by
  obtain ⟨kind, span, slots⟩ := n
  rw [expand, hexpansion]
  rfl

theorem Node.computed_rename (n : Node) :
    (n.rename σ).flag .computed = n.flag .computed := by
  cases hname : n.wildcardName? with
  | none => rw [flag, scalar?_rename hname, flag]
  | some name =>
      rw [rename_of_wildcardName hname]
      simp [flag, scalar?, slot?, set, lookup_setSlot]

theorem checkSlot_rename_parent (parent : Node) (field : Field) :
    checkSlot (parent.rename σ) field = checkSlot parent field := by
  funext child
  rw [checkSlot, parent.kind_rename, parent.computed_rename, checkSlot]

mutual

theorem Node.expand_rename {bs : Bindings} :
    (n : Node) →
      (∀ name ∈ n.wildcardNames, (bs.get? name).isSome) →
      (n.rename σ).expand (bs.rename σ) =
        ((n.expand bs).map (Expansion.rename σ)).mapError (EditError.rename σ)
  | .mk kind span slots, hbound => by
    have hrenamed := Node.expansion?_rename (σ := σ) bs (.mk kind span slots)
    cases hexpansion : (Node.mk kind span slots).expansion? bs with
    | some expansion =>
        rw [hexpansion, Option.map_some] at hrenamed
        rw [Node.expand_of_expansion hrenamed, Node.expand_of_expansion hexpansion]
        rfl
    | none =>
        have hname := Node.wildcardName?_of_expansion?_eq_none hbound hexpansion
        have hslots : ((Node.mk kind span slots).rename σ).slots = renameSlots σ kind slots := by
          rw [Node.rename_of_not_wildcard hname]
          rfl
        rw [hexpansion, Option.map_none] at hrenamed
        rw [Node.wildcardNames_eq hname] at hbound
        have hexpanded := expandSlots_rename (.mk kind span slots) slots hbound
        rw [Node.kind_mk] at hexpanded
        rw [Node.expand_eq hrenamed, Node.expand_eq hexpansion, hslots, Node.kind_rename,
          Node.span_rename, hexpanded, Node.slots_mk]
        cases expandSlots bs (.mk kind span slots) slots <;> rfl
termination_by structural n => n

theorem Slot.expand_rename {bs : Bindings} (parent : Node) (field : Field) :
    (slot : Slot) →
      (∀ name ∈ slot.wildcardNames parent.kind field, (bs.get? name).isSome) →
      (slot.rename σ parent.kind field).expand (bs.rename σ) (parent.rename σ) field =
        (slot.expand bs parent field).mapError (EditError.rename σ)
  | .node n, hbound => by
    rw [Slot.wildcardNames] at hbound
    by_cases hcallee : isDirectCallee parent.kind field n = true
    · rw [Slot.rename, if_pos hcallee, Slot.expand, Slot.expand, parent.kind_rename,
        if_pos hcallee, if_pos hcallee]
      rfl
    · rw [if_neg hcallee] at hbound
      rw [Slot.rename, if_neg hcallee, Slot.expand, Slot.expand, parent.kind_rename,
        isDirectCallee_rename, if_neg hcallee, if_neg hcallee, n.expand_rename hbound]
      apply mapError_bind
      intro expansion
      rw [expansion.single_rename]
      apply mapError_bind_same
      intro child
      rw [checkSlot_rename_parent]
      apply bind_mapError_of_same (checkSlot_rename parent field child)
      exact fun _ => rfl
  | .list ns, hbound => by
    rw [Slot.rename, Slot.expand, Slot.expand, expandNodes_rename ns hbound]
    apply mapError_bind_same
    intro children
    rw [checkSlot_rename_parent]
    apply bind_mapError_of_same (forM_checkSlot_rename parent field children)
    exact fun _ => rfl
  | .absent, _ => rfl
  | .scalar _, _ => rfl
termination_by structural slot => slot

theorem expandSlots_rename {bs : Bindings} (parent : Node) :
    (slots : List (Field × Slot)) →
      (∀ name ∈ wildcardNamesInSlots parent.kind slots, (bs.get? name).isSome) →
      expandSlots (bs.rename σ) (parent.rename σ) (renameSlots σ parent.kind slots) =
        (expandSlots bs parent slots).mapError (EditError.rename σ)
  | [], _ => rfl
  | (field, slot) :: rest, hbound => by
    rw [wildcardNamesInSlots, List.forall_mem_append] at hbound
    rw [renameSlots, expandSlots, expandSlots, slot.expand_rename parent field hbound.1,
      expandSlots_rename parent rest hbound.2]
    apply mapError_bind_same
    intro slot
    apply mapError_bind_same
    exact fun _ => rfl
termination_by structural slots => slots

theorem expandNodes_rename {bs : Bindings} :
    (ns : List Node) →
      (∀ name ∈ wildcardNamesInNodes ns, (bs.get? name).isSome) →
      expandNodes (bs.rename σ) (renameNodes σ ns) =
        (expandNodes bs ns).mapError (EditError.rename σ)
  | [], _ => rfl
  | n :: rest, hbound => by
    rw [wildcardNamesInNodes, List.forall_mem_append] at hbound
    rw [renameNodes, expandNodes, expandNodes, n.expand_rename hbound.1,
      expandNodes_rename rest hbound.2]
    apply mapError_bind
    intro expansion
    rw [expansion.nodes_rename]
    apply mapError_bind_same
    exact fun _ => rfl
termination_by structural ns => ns

end

theorem Fragment.instantiate_rename
    {template : Fragment} {bs : Bindings}
    (hbound : ∀ name ∈ referencedNames template.nodes, (bs.get? name).isSome) :
    (template.rename σ).instantiate (bs.rename σ) =
      (template.instantiate bs).mapError (EditError.rename σ) := by
  simp only [referencedNames, List.mem_eraseDups] at hbound
  cases template with
  | expression root =>
      simp only [nodes, wildcardNamesInNodes, List.append_nil] at hbound
      rw [rename, instantiate, instantiate, root.expand_rename hbound]
      apply mapError_bind
      intro expansion
      rw [expansion.single_rename]
      apply mapError_bind_same
      exact fun _ => rfl
  | statements body =>
      rw [rename, instantiate, instantiate, expandNodes_rename body hbound]
      apply mapError_bind_same
      exact fun _ => rfl

/-! ## A whole rule -/

theorem Replacement.toNode_rename (r : Replacement) (statementExpected : Bool) :
    (r.toNode statementExpected).mapError (EditError.rename σ) = r.toNode statementExpected := by
  cases r with
  | node n => rfl
  | statements body =>
      rcases body with _ | ⟨only, _ | ⟨next, rest⟩⟩
      · cases statementExpected <;> rfl
      · cases statementExpected with
        | true => rfl
        | false =>
            simp only [toNode, Bool.false_eq_true, if_false]
            split
            · cases only.child? .expression <;> rfl
            · rfl
      · cases statementExpected <;> rfl

/-- Splicing names no wildcard in its errors. -/
theorem Node.splice_rename (root : Node) (region : Region) (r : Replacement) :
    (root.splice region r).mapError (EditError.rename σ) = root.splice region r := by
  cases region with
  | run parent field start length =>
      simp only [splice]
      split <;> rfl
  | node path =>
      cases hlast : path.getLast? with
      | none => simp only [splice, hlast, r.toNode_rename]
      | some last =>
          simp only [splice, hlast]
          cases Path.resolve? path.dropLast root with
          | none => rfl
          | some parent =>
              symm
              apply bind_mapError_of_same (r.toNode_rename _)
              intro child
              apply bind_mapError_of_same (checkSlot_rename parent last.field child)
              intro _
              split <;> rfl

theorem Rule.replaceAll_rename
    {rule : Rule} {ms : List Match}
    (hbound : ∀ m ∈ ms, ∀ name ∈ referencedNames rule.template.nodes,
      (m.bindings.get? name).isSome)
    (root : Node) :
    (rule.rename σ).replaceAll (ms.map (Match.rename σ)) root =
      (rule.replaceAll ms root).mapError (EditError.rename σ) := by
  induction ms with
  | nil => rfl
  | cons m ms ih =>
      have hinstantiate : (rule.rename σ).template.instantiate (m.rename σ).bindings =
          (rule.template.instantiate m.bindings).mapError (EditError.rename σ) :=
        Fragment.instantiate_rename (hbound m List.mem_cons_self)
      rw [List.map_cons, replaceAll, replaceAll,
        ih fun later hlater => hbound later (List.mem_cons_of_mem m hlater), hinstantiate]
      apply mapError_bind_same
      intro tree
      apply mapError_bind_same
      exact fun replacement => (tree.splice_rename m.region replacement).symm

theorem Rule.transform_rename
    {rule : Rule} {root : Node}
    (hcollect : Wildcards.collect rule.pattern.fragment.nodes = .ok rule.pattern.wildcards)
    (hbound : ∀ m ∈ rule.pattern.findAll root, ∀ name ∈ referencedNames rule.template.nodes,
      (m.bindings.get? name).isSome) :
    (rule.rename σ).transform root = (rule.transform root).mapError (EditError.rename σ) := by
  have hfound : (rule.rename σ).pattern.findAll root =
      (rule.pattern.findAll root).map (Match.rename σ) :=
    Pattern.findAll_rename hcollect root
  have hselected := selectDisjoint_map (f := Match.rename σ) (fun _ => rfl)
    (rule.pattern.findAll root)
  have hkept : ∀ m ∈ selectDisjoint (rule.pattern.findAll root), m ∈ rule.pattern.findAll root :=
    fun m hm => (selectFrom_sublist _ _).subset hm
  simp only [transform, hfound, hselected, List.length_map]
  rw [replaceAll_rename fun m hm => hbound m (hkept m hm)]
  apply mapError_bind_same
  exact fun _ => rfl

/-! ## Compiling -/

/-- The rule of two halves that have been read. -/
def Rule.ofHalves (left right : Fragment) : Except RuleError Rule := do
  let wildcards ← Wildcards.collect left.nodes
  match (referencedNames right.nodes).find? fun name => !wildcards.contains name with
  | some name => .error (.undeclaredWildcard name)
  | none => return ⟨⟨left, wildcards⟩, right⟩

theorem Rule.compile_eq_ofHalves
    {text left right : String} {pattern template : Fragment}
    (hsplit : Rule.split? text = some (left, right))
    (hpattern : Fragment.parse left .pattern = .ok pattern)
    (htemplate : Fragment.parse right .template = .ok template) :
    Rule.compile text = Rule.ofHalves pattern template := by
  simp only [Rule.compile, hsplit, Pattern.compile, hpattern, htemplate, Rule.ofHalves, bind,
    Except.bind]
  cases Wildcards.collect pattern.nodes <;> rfl

theorem Rule.ofHalves_eq_ok
    {left right : Fragment} {wildcards : Wildcards}
    (hcollect : Wildcards.collect left.nodes = .ok wildcards)
    (hnames : ∀ name ∈ referencedNames right.nodes, wildcards.contains name = true) :
    Rule.ofHalves left right = .ok ⟨⟨left, wildcards⟩, right⟩ := by
  have hnone : (referencedNames right.nodes).find? (fun name => !wildcards.contains name) =
      none := by
    rw [List.find?_eq_none]
    intro name hname
    simp [hnames name hname]
  simp only [ofHalves, hcollect, bind, Except.bind, hnone]
  rfl

theorem Bindings.Covers.isSome_of_contains
    {bs : Bindings} {w : Wildcards} {name : String}
    (hcovers : bs.Covers w) (hname : w.contains name = true) :
    (bs.get? name).isSome := by
  rw [Wildcards.contains, ← hcovers name, Option.isSome_map] at hname
  exact hname

theorem mem_referencedNames_rename
    {fragment : Fragment} {name : String}
    (hname : name ∈ referencedNames (fragment.rename σ).nodes) :
    ∃ old ∈ referencedNames fragment.nodes, renameName σ old = name := by
  rw [referencedNames, List.mem_eraseDups, Fragment.nodes_rename, wildcardNamesInNodes_rename,
    List.mem_map] at hname
  obtain ⟨old, hold, hrenamed⟩ := hname
  exact ⟨old, List.mem_eraseDups.mpr hold, hrenamed⟩

/-- The letters of the wildcards may be exchanged.  Both halves of the new rule pass the checks of
compilation, so every text that reads as them compiles to it.  In every tree it finds the same
places with the same ranges, with its own names bound to the same code, and it makes the same tree
or fails in the same way. -/
theorem Rule.rename_equivariant
    {text : String} {rule : Rule}
    (hcompile : Rule.compile text = .ok rule)
    (σ : Equiv.Perm Letter) :
    Rule.ofHalves (rule.pattern.fragment.rename σ) (rule.template.rename σ) =
        .ok (rule.rename σ) ∧
      (∀ renamed left right, Rule.split? renamed = some (left, right) →
        Fragment.parse left .pattern = .ok (rule.pattern.fragment.rename σ) →
        Fragment.parse right .template = .ok (rule.template.rename σ) →
        Rule.compile renamed = .ok (rule.rename σ)) ∧
      ∀ root,
        (rule.rename σ).pattern.findAll root =
            (rule.pattern.findAll root).map (Match.rename σ) ∧
          (rule.rename σ).transform root =
            (rule.transform root).mapError (EditError.rename σ) := by
  obtain ⟨_, _, -, hpattern, -, hnames⟩ := Rule.compile_eq_ok hcompile
  have hcollect := (Pattern.compile_eq_ok_iff.mp hpattern).2
  have hrenamed : Wildcards.collect (rule.pattern.fragment.rename σ).nodes =
      .ok (rule.pattern.wildcards.rename σ) := by
    rw [Fragment.nodes_rename]
    exact Wildcards.collect_rename hcollect
  have hhalves : Rule.ofHalves (rule.pattern.fragment.rename σ) (rule.template.rename σ) =
      .ok (rule.rename σ) := by
    apply Rule.ofHalves_eq_ok hrenamed
    intro name hname
    obtain ⟨old, hold, rfl⟩ := mem_referencedNames_rename hname
    rw [Wildcards.contains_rename]
    exact hnames old hold
  refine ⟨hhalves, ?_, ?_⟩
  · intro renamed left right hsplit hleft hright
    rw [Rule.compile_eq_ofHalves hsplit hleft hright, hhalves]
  · intro root
    constructor
    · exact Pattern.findAll_rename hcollect root
    · apply Rule.transform_rename hcollect
      intro m hm name hname
      obtain ⟨candidate, hunify, -⟩ := Node.exists_unifySequence_of_mem_findMatches hm
      have hcovers := Pattern.covers_of_unifySequence hpattern hunify
      exact hcovers.isSome_of_contains (hnames name hname)

deriving instance DecidableEq for Fragment

/-- Exchanges two letters that are part of the rule, one of them the name of a called function. -/
def exchangeAF : Equiv.Perm Letter := Equiv.swap ⟨'a', rfl⟩ ⟨'f', rfl⟩

/-- The called functions keep their names, and the letters of the program play no part. -/
theorem Rule.rename_equivariant_callee :
    ∃ rule root, Rule.compile "f(a, ...b) -> a(b, a)" = .ok rule ∧
      parse "f(b, f, a);" = .ok root ∧
      Rule.compile "f(f, ...b) -> a(b, f)" = .ok (rule.rename exchangeAF) ∧
      (rule.rename exchangeAF).transform root =
        (rule.transform root).mapError (EditError.rename exchangeAF) := by
  have hsplit : Rule.split? "f(f, ...b) -> a(b, f)" = some ("f(f, ...b) ", " a(b, f)") := by
    decide +kernel
  have hrun :
      (match Rule.compile "f(a, ...b) -> a(b, a)", parse "f(b, f, a);",
          Fragment.parse "f(f, ...b) " .pattern, Fragment.parse " a(b, f)" .template with
        | .ok rule, .ok _, .ok left, .ok right =>
          decide (left = rule.pattern.fragment.rename exchangeAF) &&
            decide (right = rule.template.rename exchangeAF)
        | _, _, _, _ => false) = true := by
    decide +kernel
  split at hrun
  next rule root left right hcompile hroot hleft hright =>
    simp only [Bool.and_eq_true, decide_eq_true_iff] at hrun
    rw [hrun.1] at hleft
    rw [hrun.2] at hright
    obtain ⟨-, htext, htree⟩ := Rule.rename_equivariant hcompile exchangeAF
    exact ⟨rule, root, hcompile, hroot, htext _ _ _ hsplit hleft hright, (htree root).2⟩
  next => cases hrun

end Graft
