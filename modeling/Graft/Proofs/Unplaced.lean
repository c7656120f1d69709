import Graft.Edit.Transform

/-!
# Trees without their places

Nothing that is done with a tree depends on where its nodes were read from: forgetting all places
before an operation gives what forgetting them after it gives.  This holds for comparing, unifying,
finding matches, instantiating templates and splicing, and so for a whole rule.
-/

namespace Graft

/-! ## Deciding whether trees are equal -/

mutual

def Node.decEq : (a b : Node) → Decidable (a = b)
  | .mk kind span slots, .mk kind' span' slots' =>
    have := slotsDecEq slots slots'
    decidable_of_iff (kind = kind' ∧ span = span' ∧ slots = slots') (by simp)
termination_by structural a => a

def Slot.decEq : (a b : Slot) → Decidable (a = b)
  | .node a, .node b => have := a.decEq b; decidable_of_iff (a = b) (by simp)
  | .list as, .list bs => have := nodesDecEq as bs; decidable_of_iff (as = bs) (by simp)
  | .absent, .absent => isTrue rfl
  | .scalar a, .scalar b => decidable_of_iff (a = b) (by simp)
  | .node _, .list _ | .node _, .absent | .node _, .scalar _
  | .list _, .node _ | .list _, .absent | .list _, .scalar _
  | .absent, .node _ | .absent, .list _ | .absent, .scalar _
  | .scalar _, .node _ | .scalar _, .list _ | .scalar _, .absent => isFalse nofun
termination_by structural a => a

def slotsDecEq : (as bs : List (Field × Slot)) → Decidable (as = bs)
  | [], [] => isTrue rfl
  | [], _ :: _ | _ :: _, [] => isFalse nofun
  | (field, slot) :: as, (field', slot') :: bs =>
    have := slot.decEq slot'
    have := slotsDecEq as bs
    decidable_of_iff ((field = field' ∧ slot = slot') ∧ as = bs) (by simp)
termination_by structural as => as

def nodesDecEq : (as bs : List Node) → Decidable (as = bs)
  | [], [] => isTrue rfl
  | [], _ :: _ | _ :: _, [] => isFalse nofun
  | a :: as, b :: bs =>
    have := a.decEq b
    have := nodesDecEq as bs
    decidable_of_iff (a = b ∧ as = bs) (by simp)
termination_by structural as => as

end

instance : DecidableEq Node := Node.decEq

/-! ## Forgetting places -/

mutual

/-- The tree with every place forgotten. -/
def Node.unplaced : Node → Node
  | .mk kind _ slots => .mk kind {} (unplacedSlots slots)
termination_by structural n => n

def Slot.unplaced : Slot → Slot
  | .node n => .node n.unplaced
  | .list ns => .list (unplacedNodes ns)
  | .absent => .absent
  | .scalar s => .scalar s
termination_by structural s => s

def unplacedSlots : List (Field × Slot) → List (Field × Slot)
  | [] => []
  | (field, slot) :: rest => (field, slot.unplaced) :: unplacedSlots rest
termination_by structural ss => ss

def unplacedNodes : List Node → List Node
  | [] => []
  | n :: rest => n.unplaced :: unplacedNodes rest
termination_by structural ns => ns

end

@[simp] theorem unplacedNodes_eq_map (ns : List Node) :
    unplacedNodes ns = ns.map Node.unplaced := by
  induction ns with
  | nil => rfl
  | cons n rest ih => rw [unplacedNodes, ih, List.map_cons]

theorem unplacedSlots_eq_map (slots : List (Field × Slot)) :
    unplacedSlots slots = slots.map fun entry => (entry.1, entry.2.unplaced) := by
  induction slots with
  | nil => rfl
  | cons entry rest ih => rw [unplacedSlots, ih, List.map_cons]

@[simp] theorem length_unplacedSlots (slots : List (Field × Slot)) :
    (unplacedSlots slots).length = slots.length := by
  rw [unplacedSlots_eq_map, List.length_map]

theorem lookup_unplacedSlots (slots : List (Field × Slot)) (field : Field) :
    (unplacedSlots slots).lookup field = (slots.lookup field).map Slot.unplaced := by
  induction slots with
  | nil => rfl
  | cons entry rest ih =>
      rw [unplacedSlots, List.lookup_cons, List.lookup_cons, ih]
      split <;> rfl

/-! ## Reading a node -/

namespace Node

@[simp] theorem kind_unplaced (n : Node) : n.unplaced.kind = n.kind := by
  cases n
  rfl

@[simp] theorem span_unplaced (n : Node) : n.unplaced.span = {} := by
  cases n
  rfl

@[simp] theorem slots_unplaced (n : Node) : n.unplaced.slots = unplacedSlots n.slots := by
  cases n
  rfl

@[simp] theorem slot?_unplaced (n : Node) (field : Field) :
    n.unplaced.slot? field = (n.slot? field).map Slot.unplaced := by
  rw [slot?, slots_unplaced, lookup_unplacedSlots, slot?]

@[simp] theorem child?_unplaced (n : Node) (field : Field) :
    n.unplaced.child? field = (n.child? field).map Node.unplaced := by
  rw [child?, slot?_unplaced, child?]
  rcases n.slot? field with _ | slot
  · rfl
  · cases slot <;> rfl

@[simp] theorem list_unplaced (n : Node) (field : Field) :
    n.unplaced.list field = (n.list field).map Node.unplaced := by
  rw [list, slot?_unplaced, list]
  rcases n.slot? field with _ | slot
  · rfl
  · cases slot <;> simp [Slot.unplaced]

@[simp] theorem scalar?_unplaced (n : Node) (field : Field) :
    n.unplaced.scalar? field = n.scalar? field := by
  rw [scalar?, slot?_unplaced, scalar?]
  rcases n.slot? field with _ | slot
  · rfl
  · cases slot <;> rfl

@[simp] theorem text?_unplaced (n : Node) (field : Field) :
    n.unplaced.text? field = n.text? field := by
  rw [text?, scalar?_unplaced, text?]

@[simp] theorem flag_unplaced (n : Node) (field : Field) :
    n.unplaced.flag field = n.flag field := by
  rw [flag, scalar?_unplaced, flag]

@[simp] theorem name?_unplaced (n : Node) : n.unplaced.name? = n.name? := by
  rw [name?, kind_unplaced, text?_unplaced, name?]

theorem unplacedSlots_setSlot
    (field : Field) (slot : Slot) (slots : List (Field × Slot)) :
    unplacedSlots (setSlot field slot slots) =
      setSlot field slot.unplaced (unplacedSlots slots) := by
  induction slots with
  | nil => rfl
  | cons entry rest ih =>
      obtain ⟨other, found⟩ := entry
      rw [setSlot, unplacedSlots, setSlot]
      split
      · rfl
      · rw [unplacedSlots, ih]

theorem unplaced_set (n : Node) (field : Field) (slot : Slot) :
    (n.set field slot).unplaced = n.unplaced.set field slot.unplaced := by
  cases n
  simp only [set, unplaced, kind_mk, span_mk, slots_mk, unplacedSlots_setSlot]

end Node

/-! ## Comparing -/

mutual

theorem Node.sameStructure_unplaced_left :
    (a b : Node) →
      a.unplaced.sameStructure b = a.sameStructure b
  | .mk kind span slots, b => by
    rw [Node.unplaced, Node.sameStructure, Node.sameStructure, length_unplacedSlots,
      sameSlots_unplaced_left]
termination_by structural a => a

theorem Slot.sameStructure_unplaced_left :
    (a b : Slot) →
      a.unplaced.sameStructure b = a.sameStructure b
  | .node a, .node b => a.sameStructure_unplaced_left b
  | .list as, .list bs => sameSequence_unplaced_left as bs
  | .node _, .list _ | .node _, .absent | .node _, .scalar _ => rfl
  | .list _, .node _ | .list _, .absent | .list _, .scalar _ => rfl
  | .absent, _ | .scalar _, _ => rfl
termination_by structural a => a

theorem sameSlots_unplaced_left :
    (slots others : List (Field × Slot)) →
      sameSlots (unplacedSlots slots) others = sameSlots slots others
  | [], _ => rfl
  | (field, slot) :: rest, others => by
    rw [unplacedSlots, sameSlots, sameSlots, sameSlots_unplaced_left rest others]
    cases others.lookup field with
    | none => rfl
    | some other => simp only [slot.sameStructure_unplaced_left other]
termination_by structural slots => slots

theorem sameSequence_unplaced_left :
    (as bs : List Node) →
      sameSequence (unplacedNodes as) bs = sameSequence as bs
  | [], _ => rfl
  | _ :: _, [] => rfl
  | a :: as, b :: bs => by
    rw [unplacedNodes, sameSequence, sameSequence, a.sameStructure_unplaced_left b,
      sameSequence_unplaced_left as bs]
termination_by structural as => as

end

mutual

theorem Node.sameStructure_unplaced_right :
    (a b : Node) →
      a.sameStructure b.unplaced = a.sameStructure b
  | .mk kind span slots, b => by
    rw [Node.sameStructure, Node.sameStructure, b.kind_unplaced, b.slots_unplaced,
      length_unplacedSlots, sameSlots_unplaced_right]
termination_by structural a => a

theorem Slot.sameStructure_unplaced_right :
    (a b : Slot) →
      a.sameStructure b.unplaced = a.sameStructure b
  | .node a, .node b => a.sameStructure_unplaced_right b
  | .list as, .list bs => sameSequence_unplaced_right as bs
  | .node _, .list _ | .node _, .absent | .node _, .scalar _ => rfl
  | .list _, .node _ | .list _, .absent | .list _, .scalar _ => rfl
  | .absent, .node _ | .absent, .list _ | .absent, .absent | .absent, .scalar _ => rfl
  | .scalar _, .node _ | .scalar _, .list _ | .scalar _, .absent | .scalar _, .scalar _ => rfl
termination_by structural a => a

theorem sameSlots_unplaced_right :
    (slots others : List (Field × Slot)) →
      sameSlots slots (unplacedSlots others) = sameSlots slots others
  | [], _ => rfl
  | (field, slot) :: rest, others => by
    rw [sameSlots, sameSlots, sameSlots_unplaced_right rest others, lookup_unplacedSlots]
    cases others.lookup field with
    | none => rfl
    | some other => simp only [Option.map_some, slot.sameStructure_unplaced_right other]
termination_by structural slots => slots

theorem sameSequence_unplaced_right :
    (as bs : List Node) →
      sameSequence as (unplacedNodes bs) = sameSequence as bs
  | [], [] => rfl
  | [], _ :: _ => rfl
  | _ :: _, [] => rfl
  | a :: as, b :: bs => by
    rw [unplacedNodes, sameSequence, sameSequence, a.sameStructure_unplaced_right b,
      sameSequence_unplaced_right as bs]
termination_by structural as => as

end

/-! ## Unifying -/

def Binding.unplaced : Binding → Binding
  | node n => .node n.unplaced
  | rest ns => .rest (ns.map Node.unplaced)

theorem Binding.same_unplaced (a b : Binding) : a.unplaced.same b.unplaced = a.same b := by
  cases a <;> cases b <;>
    simp only [unplaced, same, Node.sameStructure_unplaced_left, Node.sameStructure_unplaced_right,
      ← unplacedNodes_eq_map, sameSequence_unplaced_left, sameSequence_unplaced_right]

namespace Bindings

def unplaced (bs : Bindings) : Bindings := bs.map fun entry => (entry.1, entry.2.unplaced)

@[simp] theorem unplaced_nil : unplaced [] = [] := rfl

theorem get?_unplaced (bs : Bindings) (name : String) :
    bs.unplaced.get? name = (bs.get? name).map Binding.unplaced := by
  induction bs with
  | nil => rfl
  | cons entry rest ih =>
      simp only [get?, unplaced, List.map_cons] at ih ⊢
      rw [List.lookup_cons, List.lookup_cons, ih]
      split <;> rfl

theorem bind_unplaced (bs : Bindings) (name : String) (b : Binding) :
    bs.unplaced.bind name b.unplaced = (bs.bind name b).map id unplaced := by
  rw [bind, get?_unplaced, bind]
  cases bs.get? name with
  | none => simp [unplaced]
  | some earlier => simp [Binding.same_unplaced]

end Bindings

/-- Going on commutes with a change of bindings when the next step does. -/
theorem andThen_map
    {f : Bindings → Bindings} {result : Bool × Bindings} {next next' : Bindings → Bool × Bindings}
    (hnext : ∀ bs, next' (f bs) = (next bs).map id f) :
    andThen (result.map id f) next' = (andThen result next).map id f := by
  obtain ⟨fits, bs⟩ := result
  cases fits with
  | false => rfl
  | true => exact hnext bs

theorem unifyNodes_cons_nil
    (w : Wildcards)
    {tail : Option String} {ps : List Node}
    (hlast : ps = [] → tail = none)
    (p : Node) (bs : Bindings) :
    unifyNodes w tail (p :: ps) [] bs = (false, bs) := by
  cases ps with
  | nil =>
      rw [hlast rfl]
      rfl
  | cons next ps => cases tail <;> rfl

theorem unifyNodes_cons_cons
    (w : Wildcards)
    {tail : Option String} {ps : List Node}
    (hlast : ps = [] → tail = none)
    (p c : Node) (cs : List Node) (bs : Bindings) :
    unifyNodes w tail (p :: ps) (c :: cs) bs =
      andThen (p.unify w c bs) (unifyNodes w tail ps cs) := by
  cases ps with
  | nil =>
      rw [hlast rfl]
      rfl
  | cons next ps => cases tail <;> rfl

theorem lengthsFit_unplaced (tail : Option String) (ps cs : List Node) :
    lengthsFit tail ps (cs.map Node.unplaced) = lengthsFit tail ps cs := by
  cases tail <;> simp [lengthsFit]

theorem getD_map_unplaced (slot : Option Slot) :
    (slot.map Slot.unplaced).getD .absent = (slot.getD .absent).unplaced := by
  cases slot <;> rfl

mutual

theorem Node.unify_unplaced (w : Wildcards) :
    (p c : Node) → (bs : Bindings) →
      p.unify w c.unplaced bs.unplaced = (p.unify w c bs).map id Bindings.unplaced
  | .mk kind span slots, c, bs => by
    rw [Node.unify, Node.unify]
    split
    · exact Bindings.bind_unplaced bs _ (.node c)
    · rw [c.kind_unplaced]
      split
      · rfl
      · split
        · rfl
        · exact unifySlots_unplaced w kind slots c bs
termination_by structural p => p

theorem Slot.unify_unplaced (w : Wildcards) (parent : Kind) (field : Field) :
    (p c : Slot) →
      (bs : Bindings) →
      p.unify w parent field c.unplaced bs.unplaced =
        (p.unify w parent field c bs).map id Bindings.unplaced
  | .node p, .node c, bs => by
    rw [Slot.unplaced, Slot.unify, Slot.unify]
    split
    · rw [Node.sameStructure_unplaced_right]
      rfl
    · exact p.unify_unplaced w c bs
  | .list ps, .list cs, bs => by
    rw [Slot.unplaced, Slot.unify, Slot.unify]
    rw [unplacedNodes_eq_map, lengthsFit_unplaced]
    split
    · exact unifyNodes_unplaced w _ ps cs bs
    · rfl
  | .node _, .list _, _ | .node _, .absent, _ | .node _, .scalar _, _ => rfl
  | .list _, .node _, _ | .list _, .absent, _ | .list _, .scalar _, _ => rfl
  | .absent, .node _, _ | .absent, .list _, _ | .absent, .absent, _ | .absent, .scalar _, _ => rfl
  | .scalar _, .node _, _ | .scalar _, .list _, _ | .scalar _, .absent, _
  | .scalar _, .scalar _, _ => rfl
termination_by structural p => p

theorem unifySlots_unplaced (w : Wildcards) (parent : Kind) :
    (slots : List (Field × Slot)) →
      (c : Node) → (bs : Bindings) →
      unifySlots w parent slots c.unplaced bs.unplaced =
        (unifySlots w parent slots c bs).map id Bindings.unplaced
  | [], _, _ => rfl
  | (field, slot) :: rest, c, bs => by
    rw [unifySlots, unifySlots, c.slot?_unplaced, getD_map_unplaced, slot.unify_unplaced]
    exact andThen_map fun bs => unifySlots_unplaced w parent rest c bs
termination_by structural slots => slots

theorem unifyNodes_unplaced (w : Wildcards) (tail : Option String) :
    (ps cs : List Node) →
      (bs : Bindings) →
      unifyNodes w tail ps (cs.map Node.unplaced) bs.unplaced =
        (unifyNodes w tail ps cs bs).map id Bindings.unplaced
  | [], _, _ => rfl
  | p :: ps, cs, bs => by
    by_cases hlast : ps = [] → tail = none
    · cases cs with
      | nil =>
          rw [List.map_nil, unifyNodes_cons_nil w hlast, unifyNodes_cons_nil w hlast]
          rfl
      | cons c cs =>
          rw [List.map_cons, unifyNodes_cons_cons w hlast, unifyNodes_cons_cons w hlast,
            p.unify_unplaced w c bs]
          exact andThen_map fun bs => unifyNodes_unplaced w tail ps cs bs
    · obtain ⟨rfl, htail⟩ := Classical.not_imp.mp hlast
      cases tail with
      | none => exact absurd rfl htail
      | some name => exact Bindings.bind_unplaced bs name (.rest cs)
termination_by structural ps => ps

end

theorem unifySequence_unplaced (w : Wildcards) (ps cs : List Node) (bs : Bindings) :
    unifySequence w ps (cs.map Node.unplaced) bs.unplaced =
      (unifySequence w ps cs bs).map id Bindings.unplaced := by
  rw [unifySequence, unifySequence, List.length_map]
  split
  · exact unifyNodes_unplaced w none ps cs bs
  · rfl

/-! ## Finding -/

/-- A match in the tree without places; its range is empty. -/
def Match.unplaced (m : Match) : Match := ⟨m.bindings.unplaced, m.region, 0, 0⟩

def Site.unplaced (site : Site) : Site := ⟨site.parent.unplaced, site.field⟩

theorem Site.declaresName_unplaced (site : Site) :
    site.unplaced.declaresName = site.declaresName := by
  simp only [declaresName, unplaced, Node.kind_unplaced, Node.flag_unplaced]

theorem Site.holdsOneStatement_unplaced (site : Site) :
    site.unplaced.holdsOneStatement = site.holdsOneStatement := by
  simp only [holdsOneStatement, unplaced, Node.kind_unplaced]

namespace Pattern

theorem isEligible_unplaced (p : Pattern) (site : Option Site) (n : Node) :
    p.isEligible (site.map Site.unplaced) n.unplaced = p.isEligible site n := by
  cases site with
  | none => simp only [isEligible, Option.map_none, Node.kind_unplaced]
  | some site =>
      simp only [isEligible, Option.map_some, Option.any_some, Node.kind_unplaced,
        Site.declaresName_unplaced, Site.holdsOneStatement_unplaced]

theorem fitNode?_unplaced (p : Pattern) (n : Node) :
    p.fitNode? n.unplaced = (p.fitNode? n).map Bindings.unplaced := by
  cases hroot : p.fragment.nodes.head? with
  | none => simp [fitNode?, hroot]
  | some root =>
      have hunify := root.unify_unplaced p.wildcards n []
      rw [Bindings.unplaced_nil] at hunify
      simp only [fitNode?, hroot, Option.bind_eq_bind, Option.bind_some, hunify, Prod.map_fst,
        Prod.map_snd, id_eq]
      split <;> rfl

theorem matchNode?_unplaced (p : Pattern) (site : Option Site) (n : Node) :
    p.matchNode? (site.map Site.unplaced) n.unplaced =
      (p.matchNode? site n).map Match.unplaced := by
  rw [matchNode?, matchNode?, isEligible_unplaced, fitNode?_unplaced]
  split
  · simp only [Option.map_map, Node.span_unplaced]
    rfl
  · rfl

theorem matchRun?_unplaced
    (p : Pattern) (field : Field) (start : Nat) (items : List Node) :
    p.matchRun? field start (items.map Node.unplaced) =
      (p.matchRun? field start items).map Match.unplaced := by
  cases hfragment : p.fragment with
  | expression root => simp [matchRun?, hfragment]
  | statements body =>
      have hunify := unifySequence_unplaced p.wildcards body (items.take body.length) []
      rw [Bindings.unplaced_nil] at hunify
      simp only [matchRun?, hfragment, ← List.map_take, hunify, List.head?_map, List.getLast?_map,
        List.length_map, Prod.map_fst, Prod.map_snd, id_eq]
      cases (unifySequence p.wildcards body (items.take body.length)).1 <;>
        cases (items.take body.length).head? <;>
          cases (items.take body.length).getLast? <;> simp [Match.unplaced]

end Pattern

mutual

theorem Node.findMatches_unplaced (p : Pattern) (site : Option Site) :
    (n : Node) →
      n.unplaced.findMatches p (site.map Site.unplaced) =
        (n.findMatches p site).map Match.unplaced
  | .mk kind span slots => by
    have hnode := p.matchNode?_unplaced site (.mk kind span slots)
    have hslots := findMatchesInSlots_unplaced p (.mk kind span slots) slots
    rw [Node.unplaced] at hnode hslots ⊢
    rw [Node.findMatches, Node.findMatches, hnode, hslots, List.map_append]
    cases p.matchNode? site (.mk kind span slots) <;> rfl
termination_by structural n => n

theorem Slot.findMatches_unplaced (p : Pattern) (site : Site) :
    (slot : Slot) →
      slot.unplaced.findMatches p site.unplaced = (slot.findMatches p site).map Match.unplaced
  | .node n => by
    have hn := n.findMatches_unplaced p (some site)
    rw [Option.map_some] at hn
    rw [Slot.unplaced, Slot.findMatches, Slot.findMatches, hn, List.map_map, List.map_map]
    rfl
  | .list ns => findMatchesInNodes_unplaced p site 0 ns
  | .absent => rfl
  | .scalar _ => rfl
termination_by structural slot => slot

theorem findMatchesInSlots_unplaced (p : Pattern) (parent : Node) :
    (slots : List (Field × Slot)) →
    findMatchesInSlots p parent.unplaced (unplacedSlots slots) =
      (findMatchesInSlots p parent slots).map Match.unplaced
  | [] => rfl
  | (field, slot) :: rest => by
    have hslot := slot.findMatches_unplaced p ⟨parent, field⟩
    rw [unplacedSlots, findMatchesInSlots, findMatchesInSlots, List.map_append, ← hslot,
      ← findMatchesInSlots_unplaced p parent rest]
    rfl
termination_by structural slots => slots

theorem findMatchesInNodes_unplaced (p : Pattern) (site : Site) (start : Nat) :
    (ns : List Node) →
    findMatchesInNodes p site.unplaced start (unplacedNodes ns) =
      (findMatchesInNodes p site start ns).map Match.unplaced
  | [] => rfl
  | n :: rest => by
    have hn := n.findMatches_unplaced p (some site)
    have hrun := p.matchRun?_unplaced site.field start (n :: rest)
    have hrest := findMatchesInNodes_unplaced p site (start + 1) rest
    rw [Option.map_some] at hn
    rw [← unplacedNodes_eq_map, unplacedNodes] at hrun
    rw [unplacedNodes, findMatchesInNodes, findMatchesInNodes, hn, hrest, List.map_append,
      List.map_append, List.map_map, List.map_map]
    simp only [Site.unplaced, Node.kind_unplaced, hrun]
    congr 2
    split
    · cases p.matchRun? site.field start (n :: rest) <;> rfl
    · rfl
termination_by structural ns => ns

end

theorem Pattern.findAll_unplaced (p : Pattern) (root : Node) :
    p.findAll root.unplaced = (p.findAll root).map Match.unplaced :=
  root.findMatches_unplaced p none

/-- Which matches are kept depends on their regions only. -/
theorem selectFrom_map
    {f : Match → Match}
    (hregion : ∀ m, (f m).region = m.region)
    (ms : List Match) :
    ∀ kept, selectFrom kept (ms.map f) = (selectFrom kept ms).map f := by
  induction ms with
  | nil => exact fun _ => rfl
  | cons m ms ih =>
      intro kept
      rw [List.map_cons, selectFrom, selectFrom, hregion, ih, ih]
      split <;> rfl

theorem selectDisjoint_map
    {f : Match → Match}
    (hregion : ∀ m, (f m).region = m.region)
    (ms : List Match) :
    selectDisjoint (ms.map f) = (selectDisjoint ms).map f :=
  selectFrom_map hregion ms []

/-! ## What a node of a template is bound to -/

/-- What the name of a node is bound to. -/
def Bindings.bound? (bs : Bindings) (n : Node) : Option (String × Binding) :=
  n.name?.bind fun name => (bs.get? name).bind fun b => some (name, b)

def Expansion.ofEntry : String × Binding → Expansion
  | (_, .node captured) => .one captured
  | (name, .rest captured) => .many name captured

/-- Behind dots only the rest of a list is put in place. -/
def Expansion.ofRest? : String × Binding → Option Expansion
  | (_, .node _) => none
  | (name, .rest captured) => some (.many name captured)

theorem Node.expansion?_eq (bs : Bindings) (n : Node) :
    n.expansion? bs =
      match bs.bound? n with
      | some entry => some (.ofEntry entry)
      | none =>
        if n.kind = .spreadElement ∨ n.kind = .restElement then
          ((n.child? .argument).bind bs.bound?).bind Expansion.ofRest?
        else none := by
  have hself : (n.name?.bind fun name => (bs.get? name).bind fun b => some (name, b)) =
      bs.bound? n := rfl
  have hargument : ((n.child? .argument).bind fun c =>
      c.name?.bind fun name => (bs.get? name).bind fun b => some (name, b)) =
      (n.child? .argument).bind bs.bound? := rfl
  simp only [expansion?, Option.bind_eq_bind, Option.pure_def, hself, hargument]
  cases bs.bound? n with
  | some entry =>
      obtain ⟨name, captured⟩ := entry
      cases captured <;> rfl
  | none =>
      dsimp only
      split
      · cases (n.child? .argument).bind bs.bound? with
        | none => rfl
        | some entry =>
            obtain ⟨name, captured⟩ := entry
            cases captured <;> rfl
      · rfl

/-! ## Instantiating -/

/-- A step that commutes with forgetting keeps the rest of a computation in step. -/
theorem map_bind_map
    {ε α β γ δ : Type} {f : α → β} {g : γ → δ} {next : α → Except ε γ} {next' : β → Except ε δ}
    (x : Except ε α)
    (hnext : ∀ a, next' (f a) = (next a).map g) :
    (x.map f >>= next') = (x >>= next).map g := by
  cases x with
  | error e => rfl
  | ok a => exact hnext a

theorem bind_map_of_eq
    {ε α γ δ : Type} {g : γ → δ} {next : α → Except ε γ} {next' : α → Except ε δ}
    (x : Except ε α)
    (hnext : ∀ a, next' a = (next a).map g) :
    (x >>= next') = (x >>= next).map g := by
  cases x with
  | error e => rfl
  | ok a => exact hnext a

def Expansion.unplaced : Expansion → Expansion
  | one n => .one n.unplaced
  | many name ns => .many name (ns.map Node.unplaced)

theorem Expansion.nodes_unplaced (e : Expansion) :
    e.unplaced.nodes = e.nodes.map Node.unplaced := by
  cases e <;> rfl

theorem Expansion.single_unplaced (e : Expansion) :
    e.unplaced.single = e.single.map Node.unplaced := by
  cases e <;> rfl

theorem Bindings.bound?_unplaced (bs : Bindings) (n : Node) :
    bs.unplaced.bound? n.unplaced = (bs.bound? n).map (Prod.map id Binding.unplaced) := by
  rw [bound?, n.name?_unplaced, bound?]
  cases n.name? with
  | none => rfl
  | some name =>
      simp only [Option.bind_some, get?_unplaced]
      cases bs.get? name <;> rfl

theorem Expansion.ofEntry_unplaced (entry : String × Binding) :
    ofEntry (entry.map id Binding.unplaced) = (ofEntry entry).unplaced := by
  obtain ⟨name, captured⟩ := entry
  cases captured <;> rfl

theorem Expansion.ofRest?_unplaced (entry : String × Binding) :
    ofRest? (entry.map id Binding.unplaced) = (ofRest? entry).map unplaced := by
  obtain ⟨name, captured⟩ := entry
  cases captured <;> rfl

theorem Node.expansion?_unplaced (bs : Bindings) (n : Node) :
    n.unplaced.expansion? bs.unplaced = (n.expansion? bs).map Expansion.unplaced := by
  rw [expansion?_eq, expansion?_eq, bs.bound?_unplaced, kind_unplaced, child?_unplaced]
  cases bs.bound? n with
  | some entry => exact congrArg some (Expansion.ofEntry_unplaced entry)
  | none =>
      dsimp only [Option.map_none]
      split
      · cases n.child? .argument with
        | none => rfl
        | some argument =>
            simp only [Option.map_some, Option.bind_some, bs.bound?_unplaced]
            cases bs.bound? argument with
            | none => rfl
            | some entry => exact Expansion.ofRest?_unplaced entry
      · rfl

theorem checkSlot_unplaced (parent : Node) (field : Field) (child : Node) :
    checkSlot parent.unplaced field child.unplaced = checkSlot parent field child := by
  simp only [checkSlot, Node.kind_unplaced, Node.flag_unplaced]

theorem forM_checkSlot_unplaced (parent : Node) (field : Field) (children : List Node) :
    (children.map Node.unplaced).forM (checkSlot parent.unplaced field) =
      children.forM (checkSlot parent field) := by
  induction children with
  | nil => rfl
  | cons child rest ih =>
      simp only [List.forM_eq_forM, List.map_cons, List.forM_cons, checkSlot_unplaced] at ih ⊢
      rw [ih]

theorem isDirectCallee_unplaced (parent : Kind) (field : Field) (n : Node) :
    isDirectCallee parent field n.unplaced = isDirectCallee parent field n := by
  simp only [isDirectCallee, Node.kind_unplaced]

mutual

theorem Node.expand_unplaced (bs : Bindings) :
    (n : Node) →
      n.unplaced.expand bs.unplaced = (n.expand bs).map Expansion.unplaced
  | .mk kind span slots => by
    have hself := Node.expansion?_unplaced bs (.mk kind span slots)
    have hslots := expandSlots_unplaced bs (.mk kind span slots) slots
    rw [Node.unplaced] at hself hslots ⊢
    rw [Node.expand, Node.expand, hself, hslots]
    cases (Node.mk kind span slots).expansion? bs with
    | some expansion => rfl
    | none => cases expandSlots bs (.mk kind span slots) slots <;> rfl
termination_by structural n => n

theorem Slot.expand_unplaced (bs : Bindings) (parent : Node) (field : Field) :
    (slot : Slot) →
      slot.unplaced.expand bs.unplaced parent.unplaced field =
        (slot.expand bs parent field).map Slot.unplaced
  | .node n => by
    rw [Slot.unplaced, Slot.expand, Slot.expand, parent.kind_unplaced, isDirectCallee_unplaced,
      n.expand_unplaced]
    split
    · rfl
    · apply map_bind_map
      intro expansion
      rw [expansion.single_unplaced]
      apply map_bind_map
      intro child
      rw [checkSlot_unplaced]
      apply bind_map_of_eq
      exact fun _ => rfl
  | .list ns => by
    rw [Slot.unplaced, Slot.expand, Slot.expand, unplacedNodes_eq_map, expandNodes_unplaced]
    apply map_bind_map
    intro children
    rw [forM_checkSlot_unplaced]
    apply bind_map_of_eq
    intro _
    rw [← unplacedNodes_eq_map]
    rfl
  | .absent => rfl
  | .scalar _ => rfl
termination_by structural slot => slot

theorem expandSlots_unplaced (bs : Bindings) (parent : Node) :
    (slots : List (Field × Slot)) →
      expandSlots bs.unplaced parent.unplaced (unplacedSlots slots) =
        (expandSlots bs parent slots).map unplacedSlots
  | [] => rfl
  | (field, slot) :: rest => by
    rw [unplacedSlots, expandSlots, expandSlots, slot.expand_unplaced,
      expandSlots_unplaced bs parent rest]
    apply map_bind_map
    intro slot
    apply map_bind_map
    exact fun _ => rfl
termination_by structural slots => slots

theorem expandNodes_unplaced (bs : Bindings) :
    (ns : List Node) →
      expandNodes bs.unplaced (ns.map Node.unplaced) =
        (expandNodes bs ns).map (List.map Node.unplaced)
  | [] => rfl
  | n :: rest => by
    rw [List.map_cons, expandNodes, expandNodes, n.expand_unplaced, expandNodes_unplaced bs rest]
    apply map_bind_map
    intro expansion
    apply map_bind_map
    intro rest
    rw [expansion.nodes_unplaced, ← List.map_append]
    rfl
termination_by structural ns => ns

end

def Fragment.unplaced : Fragment → Fragment
  | expression root => .expression root.unplaced
  | statements body => .statements (body.map Node.unplaced)

def Replacement.unplaced : Replacement → Replacement
  | node n => .node n.unplaced
  | statements body => .statements (body.map Node.unplaced)

theorem Fragment.instantiate_unplaced (template : Fragment) (bs : Bindings) :
    template.unplaced.instantiate bs.unplaced =
      (template.instantiate bs).map Replacement.unplaced := by
  cases template with
  | expression root =>
      simp only [unplaced, instantiate, root.expand_unplaced]
      apply map_bind_map
      intro expansion
      rw [expansion.single_unplaced]
      apply map_bind_map
      exact fun _ => rfl
  | statements body =>
      simp only [unplaced, instantiate, expandNodes_unplaced]
      apply map_bind_map
      exact fun _ => rfl

/-! ## Splicing -/

theorem Node.asStatement_unplaced (n : Node) : n.unplaced.asStatement = n.asStatement.unplaced := by
  rw [asStatement, asStatement, kind_unplaced, span_unplaced]
  split <;> rfl

namespace Replacement

theorem toNode_unplaced (r : Replacement) (statementExpected : Bool) :
    r.unplaced.toNode statementExpected = (r.toNode statementExpected).map Node.unplaced := by
  cases r with
  | node n =>
      cases statementExpected <;> simp [unplaced, toNode, Except.map, Node.asStatement_unplaced]
  | statements body =>
      rcases body with _ | ⟨only, _ | ⟨next, rest⟩⟩
      · cases statementExpected <;> rfl
      · cases statementExpected with
        | true => rfl
        | false =>
            simp only [unplaced, toNode, List.map_cons, List.map_nil, Node.kind_unplaced,
              Node.child?_unplaced, Bool.false_eq_true, if_false]
            split
            · cases only.child? .expression <;> rfl
            · rfl
      · cases statementExpected <;> simp [unplaced, toNode, Except.map]

theorem toStatements_unplaced (r : Replacement) :
    r.unplaced.toStatements = r.toStatements.map Node.unplaced := by
  cases r with
  | node n => simp [unplaced, toStatements, Node.asStatement_unplaced]
  | statements body => rfl

end Replacement

namespace Slot

theorem child?_unplaced (slot : Slot) (index : Option Nat) :
    slot.unplaced.child? index = (slot.child? index).map Node.unplaced := by
  cases slot <;> cases index <;> simp [unplaced, child?]

theorem setChild?_unplaced (slot : Slot) (index : Option Nat) (child : Node) :
    slot.unplaced.setChild? index child.unplaced =
      (slot.setChild? index child).map Slot.unplaced := by
  cases slot <;> cases index <;> simp [unplaced, setChild?]

theorem setRun?_unplaced (slot : Slot) (start length : Nat) (body : List Node) :
    slot.unplaced.setRun? start length (body.map Node.unplaced) =
      (slot.setRun? start length body).map Slot.unplaced := by
  cases slot <;> simp [unplaced, setRun?]

end Slot

theorem Path.resolve?_unplaced (path : Path) (n : Node) :
    path.resolve? n.unplaced = (path.resolve? n).map Node.unplaced := by
  induction path generalizing n with
  | nil => rfl
  | cons step rest ih =>
      simp only [resolve?, Node.slot?_unplaced, Option.bind_eq_bind]
      cases n.slot? step.field with
      | none => rfl
      | some slot =>
          simp only [Option.map_some, Option.bind_some, Slot.child?_unplaced]
          cases slot.child? step.index with
          | none => rfl
          | some child => exact ih child

theorem Node.editSlot?_unplaced
    (field : Field) (edit edit' : Slot → Option Slot)
    (hedit : ∀ slot, edit' slot.unplaced = (edit slot).map Slot.unplaced)
    (path : Path) (n : Node) :
    n.unplaced.editSlot? field edit' path = (n.editSlot? field edit path).map Node.unplaced := by
  induction path generalizing n with
  | nil =>
      simp only [editSlot?, slot?_unplaced, Option.bind_eq_bind, Option.pure_def]
      cases n.slot? field with
      | none => rfl
      | some slot =>
          simp only [Option.map_some, Option.bind_some, hedit]
          cases edit slot <;> simp [unplaced_set]
  | cons step rest ih =>
      simp only [editSlot?, slot?_unplaced, Option.bind_eq_bind, Option.pure_def]
      cases n.slot? step.field with
      | none => rfl
      | some slot =>
          simp only [Option.map_some, Option.bind_some, Slot.child?_unplaced]
          cases slot.child? step.index with
          | none => rfl
          | some child =>
              simp only [Option.map_some, Option.bind_some, ih]
              cases child.editSlot? field edit rest with
              | none => rfl
              | some child =>
                  simp only [Option.map_some, Option.bind_some, Slot.setChild?_unplaced]
                  cases slot.setChild? step.index child <;> simp [unplaced_set]

/-- The tree of an edit, which fails where there is nothing to edit. -/
theorem okOrNoSuchPlace_unplaced (tree? : Option Node) :
    (match tree?.map Node.unplaced with
      | some tree => Except.ok tree
      | none => .error EditError.noSuchPlace) =
      (match tree? with
        | some tree => Except.ok tree
        | none => .error EditError.noSuchPlace).map Node.unplaced := by
  cases tree? <;> rfl

theorem Node.splice_unplaced (root : Node) (region : Region) (r : Replacement) :
    root.unplaced.splice region r.unplaced = (root.splice region r).map Node.unplaced := by
  cases region with
  | run parent field start length =>
      have hedit := root.editSlot?_unplaced field
        (fun slot => slot.setRun? start length r.toStatements)
        (fun slot => slot.setRun? start length (r.toStatements.map Node.unplaced))
        (fun slot => slot.setRun?_unplaced start length r.toStatements) parent
      simp only [splice, r.toStatements_unplaced, hedit]
      exact okOrNoSuchPlace_unplaced _
  | node path =>
      cases hlast : path.getLast? with
      | none => simp only [splice, hlast, r.toNode_unplaced]
      | some last =>
          simp only [splice, hlast, Path.resolve?_unplaced]
          cases Path.resolve? path.dropLast root with
          | none => rfl
          | some parent =>
              simp only [Option.map_some, Node.kind_unplaced, r.toNode_unplaced]
              apply map_bind_map
              intro child
              have hedit := root.editSlot?_unplaced last.field
                (fun slot => slot.setChild? last.index child)
                (fun slot => slot.setChild? last.index child.unplaced)
                (fun slot => slot.setChild?_unplaced last.index child) path.dropLast
              rw [checkSlot_unplaced, hedit]
              apply bind_map_of_eq
              exact fun _ => okOrNoSuchPlace_unplaced _

/-! ## A whole rule -/

def Transformed.unplaced (t : Transformed) : Transformed := { t with tree := t.tree.unplaced }

/-- The rule with the places of its template forgotten; those of its pattern are never looked
at. -/
def Rule.unplaced (rule : Rule) : Rule := { rule with template := rule.template.unplaced }

theorem Rule.replaceAll_unplaced (rule : Rule) (ms : List Match) (root : Node) :
    rule.unplaced.replaceAll (ms.map Match.unplaced) root.unplaced =
      (rule.replaceAll ms root).map Node.unplaced := by
  induction ms with
  | nil => rfl
  | cons m ms ih =>
      have hinstantiate : rule.unplaced.template.instantiate m.unplaced.bindings =
          (rule.template.instantiate m.bindings).map Replacement.unplaced :=
        rule.template.instantiate_unplaced m.bindings
      rw [List.map_cons, replaceAll, replaceAll, ih, hinstantiate]
      apply map_bind_map
      intro tree
      apply map_bind_map
      exact tree.splice_unplaced m.region

theorem Rule.transform_unplaced (rule : Rule) (root : Node) :
    rule.unplaced.transform root.unplaced = (rule.transform root).map Transformed.unplaced := by
  have hfound : rule.unplaced.pattern.findAll root.unplaced =
      (rule.pattern.findAll root).map Match.unplaced :=
    rule.pattern.findAll_unplaced root
  have hselected := selectDisjoint_map (f := Match.unplaced) (fun _ => rfl)
    (rule.pattern.findAll root)
  simp only [transform, hfound, hselected, rule.replaceAll_unplaced, List.length_map]
  apply map_bind_map
  exact fun _ => rfl

end Graft
