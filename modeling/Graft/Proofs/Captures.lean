import Graft.Match.Unify
import Graft.Proofs.SameStructure

/-!
# Captures

Unification walks through a pattern and a candidate and makes bindings on the way.  The walk does
not depend on the bindings: it meets the same places in the same order whatever is bound, and the
bindings only decide whether a name that comes up again may take its new value.  So a unification
is a walk that collects what each wildcard meets, its captures, followed by binding them in order.
-/

namespace Graft

mutual

/-- What the wildcards of a pattern meet in a candidate, in the order of the pattern, if the two
fit apart from repeated wildcards. -/
def Node.captures (w : Wildcards) : Node → Node → Option (List (String × Binding))
  | .mk kind span slots, candidate =>
    let pattern : Node := .mk kind span slots
    match w.valueName? pattern with
    | some name => some [(name, .node candidate)]
    | none =>
      if kind ≠ candidate.kind then none
      else if kind = .blockStatement ∧ (pattern.list .body).isEmpty then some []
      else capturesInSlots w kind slots candidate
termination_by structural n => n

def Slot.captures (w : Wildcards) (parent : Kind) (field : Field) :
    Slot → Slot → Option (List (String × Binding))
  | .node p, .node c =>
    if isDirectCallee parent field p then if p.sameStructure c then some [] else none
    else p.captures w c
  | .list ps, .list cs =>
    let tail := ps.getLast?.bind w.restName?
    if lengthsFit tail ps cs then capturesInNodes w tail ps cs else none
  | .absent, .absent => some []
  | .scalar a, .scalar b => if a.same b then some [] else none
  | _, _ => none
termination_by structural s => s

def capturesInSlots (w : Wildcards) (parent : Kind) :
    List (Field × Slot) → Node → Option (List (String × Binding))
  | [], _ => some []
  | (field, slot) :: rest, candidate => do
    let first ← slot.captures w parent field ((candidate.slot? field).getD .absent)
    let others ← capturesInSlots w parent rest candidate
    return first ++ others
termination_by structural ss => ss

def capturesInNodes (w : Wildcards) (tail : Option String) :
    List Node → List Node → Option (List (String × Binding))
  | [], _ => some []
  | p :: ps, cs =>
    match tail, ps, cs with
    | some name, [], cs => some [(name, .rest cs)]
    | _, _, [] => none
    | _, _, c :: cs => do
      let first ← p.captures w c
      let others ← capturesInNodes w tail ps cs
      return first ++ others
termination_by structural ns => ns

end

/-- Binds captures one after the other, until one does not agree with an earlier one. -/
def Bindings.bindAll (bs : Bindings) : List (String × Binding) → Bool × Bindings
  | [] => (true, bs)
  | (name, b) :: rest => andThen (bs.bind name b) fun bs => bs.bindAll rest

theorem andThen_eq_iff
    {result : Bool × Bindings} {next : Bindings → Bool × Bindings} {bs : Bindings} :
    andThen result next = (true, bs) ↔
      ∃ mid, result = (true, mid) ∧ next mid = (true, bs) := by
  obtain ⟨success, mid⟩ := result
  cases success <;> simp [andThen]

theorem Bindings.bindAll_append {bs : Bindings} {front back : List (String × Binding)} :
    bs.bindAll (front ++ back) = andThen (bs.bindAll front) fun bs => bs.bindAll back := by
  induction front generalizing bs with
  | nil => simp [Bindings.bindAll, andThen]
  | cons capture rest ih =>
      obtain ⟨name, b⟩ := capture
      simp only [List.cons_append, Bindings.bindAll, ih, andThen]
      split <;> rfl

theorem append_eq_some_iff
    {first others : Option (List (String × Binding))} {found : List (String × Binding)} :
    (do
      let front ← first
      let back ← others
      return front ++ back) = some found ↔
      ∃ front back, first = some front ∧ others = some back ∧ found = front ++ back := by
  cases first <;> cases others <;> simp [eq_comm]

/-! ## Unification binds the captures -/

/-- Running from any bindings succeeds exactly when there are captures and they can be bound. -/
def Binds (run : Bindings → Bool × Bindings) (captures : Option (List (String × Binding))) :
    Prop :=
  ∀ bs bs', run bs = (true, bs') ↔
    ∃ found, captures = some found ∧ bs.bindAll found = (true, bs')

namespace Binds

theorem check (test : Bool) :
    Binds (fun bs => (test, bs)) (if test then some [] else none) := by
  intro bs bs'
  cases test <;> simp [Bindings.bindAll]

theorem fail : Binds (fun bs => (false, bs)) none := check false

theorem done : Binds (fun bs => (true, bs)) (some []) := check true

theorem bind (name : String) (b : Binding) :
    Binds (fun bs => bs.bind name b) (some [(name, b)]) := by
  intro bs bs'
  simp [Bindings.bindAll, andThen_eq_iff]

theorem andThen
    {run next : Bindings → Bool × Bindings} {first others : Option (List (String × Binding))}
    (hrun : Binds run first) (hnext : Binds next others) :
    Binds (fun bs => Graft.andThen (run bs) next)
      (do
        let front ← first
        let back ← others
        return front ++ back) := by
  intro bs bs'
  rw [andThen_eq_iff]
  constructor
  · rintro ⟨mid, hmid, hbs⟩
    obtain ⟨front, rfl, hfront⟩ := (hrun bs mid).mp hmid
    obtain ⟨back, rfl, hback⟩ := (hnext mid bs').mp hbs
    refine ⟨front ++ back, rfl, ?_⟩
    rw [Bindings.bindAll_append, andThen_eq_iff]
    exact ⟨mid, hfront, hback⟩
  · rintro ⟨found, hfound, hbs⟩
    obtain ⟨front, back, rfl, rfl, rfl⟩ := append_eq_some_iff.mp hfound
    rw [Bindings.bindAll_append, andThen_eq_iff] at hbs
    obtain ⟨mid, hfront, hback⟩ := hbs
    exact ⟨mid, (hrun bs mid).mpr ⟨front, rfl, hfront⟩, (hnext mid bs').mpr ⟨back, rfl, hback⟩⟩

end Binds

mutual

theorem Node.binds_captures (w : Wildcards) :
    (p c : Node) → Binds (p.unify w c) (p.captures w c)
  | .mk kind span slots, c => by
    intro bs bs'
    unfold Node.unify Node.captures
    dsimp only
    cases hname : w.valueName? (.mk kind span slots) with
    | some name => exact Binds.bind name (.node c) bs bs'
    | none =>
        by_cases hkind : kind ≠ c.kind
        · simp only [if_pos hkind]
          exact Binds.fail bs bs'
        · by_cases hempty : kind = .blockStatement ∧
              ((Node.mk kind span slots).list .body).isEmpty = true
          · simp only [if_neg hkind, if_pos hempty]
            exact Binds.done bs bs'
          · simp only [if_neg hkind, if_neg hempty]
            exact binds_capturesInSlots w kind slots c bs bs'
termination_by structural p => p

theorem Slot.binds_captures (w : Wildcards) (parent : Kind) (field : Field) :
    (slot other : Slot) →
      Binds (slot.unify w parent field other) (slot.captures w parent field other)
  | .node p, other => by
    intro bs bs'
    cases other with
    | node c =>
        unfold Slot.unify Slot.captures
        by_cases hcallee : isDirectCallee parent field p = true
        · simp only [hcallee, if_true]
          exact Binds.check (p.sameStructure c) bs bs'
        · simp only [hcallee, if_false, Bool.false_eq_true]
          exact Node.binds_captures w p c bs bs'
    | _ => exact Binds.fail bs bs'
  | .list ps, other => by
    intro bs bs'
    cases other with
    | list cs =>
        unfold Slot.unify Slot.captures
        by_cases hlength : lengthsFit (ps.getLast?.bind w.restName?) ps cs = true
        · simp only [if_pos hlength]
          exact binds_capturesInNodes w _ ps cs bs bs'
        · simp only [if_neg hlength]
          exact Binds.fail bs bs'
    | _ => exact Binds.fail bs bs'
  | .absent, other => by
    cases other with
    | absent => exact .done
    | _ => exact .fail
  | .scalar a, other => by
    cases other with
    | scalar b => exact .check (a.same b)
    | _ => exact .fail
termination_by structural slot => slot

theorem binds_capturesInSlots (w : Wildcards) (parent : Kind) :
    (slots : List (Field × Slot)) → (c : Node) →
      Binds (unifySlots w parent slots c) (capturesInSlots w parent slots c)
  | [], _ => .done
  | (field, slot) :: rest, c =>
    .andThen (Slot.binds_captures w parent field slot _) (binds_capturesInSlots w parent rest c)
termination_by structural slots => slots

theorem binds_capturesInNodes (w : Wildcards) (tail : Option String) :
    (ps cs : List Node) → Binds (unifyNodes w tail ps cs) (capturesInNodes w tail ps cs)
  | [], _ => .done
  | p :: ps, cs => by
    cases tail with
    | none =>
        cases cs with
        | nil => exact .fail
        | cons c cs =>
            exact (Node.binds_captures w p c).andThen (binds_capturesInNodes w none ps cs)
    | some name =>
        cases ps with
        | nil => exact .bind name (.rest cs)
        | cons next ps =>
            cases cs with
            | nil => exact .fail
            | cons c cs =>
                exact (Node.binds_captures w p c).andThen
                  (binds_capturesInNodes w (some name) (next :: ps) cs)
termination_by structural ps => ps

end

/-! ## Where captures come from -/

/-- A block that fits every block. -/
def Node.IsEmptyBlock (n : Node) : Prop :=
  n.kind = .blockStatement ∧ (n.list .body).isEmpty = true

instance (n : Node) : Decidable n.IsEmptyBlock :=
  inferInstanceAs (Decidable (n.kind = .blockStatement ∧ (n.list .body).isEmpty = true))

theorem Node.captures_of_valueName
    {w : Wildcards} {p : Node} {name : String}
    (hname : w.valueName? p = some name)
    (c : Node) :
    p.captures w c = some [(name, .node c)] := by
  obtain ⟨kind, span, slots⟩ := p
  simp only [Node.captures, hname]

theorem Node.captures_eq_some_iff
    {w : Wildcards} {p c : Node}
    (hname : w.valueName? p = none)
    {found : List (String × Binding)} :
    p.captures w c = some found ↔
      p.kind = c.kind ∧
        (p.IsEmptyBlock ∧ found = [] ∨
          ¬ p.IsEmptyBlock ∧ capturesInSlots w p.kind p.slots c = some found) := by
  obtain ⟨kind, span, slots⟩ := p
  simp only [Node.captures, hname, Node.IsEmptyBlock, Node.kind_mk, Node.slots_mk]
  constructor
  · intro hfound
    split_ifs at hfound with hkind hempty
    · cases hfound
      exact ⟨not_not.mp hkind, .inl ⟨hempty, rfl⟩⟩
    · exact ⟨not_not.mp hkind, .inr ⟨hempty, hfound⟩⟩
  · rintro ⟨hkind, ⟨hempty, rfl⟩ | ⟨hempty, hslots⟩⟩
    · rw [if_neg (not_not.mpr hkind), if_pos hempty]
    · rw [if_neg (not_not.mpr hkind), if_neg hempty, hslots]

theorem capturesInSlots_cons_eq_some_iff
    {w : Wildcards} {parent : Kind} {field : Field} {slot : Slot} {rest : List (Field × Slot)}
    {c : Node} {found : List (String × Binding)} :
    capturesInSlots w parent ((field, slot) :: rest) c = some found ↔
      ∃ first others,
        slot.captures w parent field ((c.slot? field).getD .absent) = some first ∧
        capturesInSlots w parent rest c = some others ∧ found = first ++ others :=
  append_eq_some_iff

/-- The last node of a pattern with a tail takes all that is left, every other one takes one
node. -/
theorem capturesInNodes_cons_eq_some_iff
    {w : Wildcards} {tail : Option String} {p : Node} {ps cs : List Node}
    {found : List (String × Binding)} :
    capturesInNodes w tail (p :: ps) cs = some found ↔
      (∃ name, tail = some name ∧ ps = [] ∧ found = [(name, .rest cs)]) ∨
        ((ps = [] → tail = none) ∧ ∃ c rest first others, cs = c :: rest ∧
          p.captures w c = some first ∧ capturesInNodes w tail ps rest = some others ∧
          found = first ++ others) := by
  cases tail with
  | none =>
      cases cs with
      | nil => simp [capturesInNodes]
      | cons c cs =>
          rw [capturesInNodes, append_eq_some_iff]
          · simp
          · simp
  | some name =>
      cases ps with
      | nil => simp [capturesInNodes, eq_comm]
      | cons next ps =>
          cases cs with
          | nil => simp [capturesInNodes]
          | cons c cs =>
              rw [capturesInNodes, append_eq_some_iff]
              · simp
              · simp

theorem exists_slot_of_mem_capturesInSlots
    {w : Wildcards} {parent : Kind} {slots : List (Field × Slot)} {c : Node}
    {found : List (String × Binding)}
    (hfound : capturesInSlots w parent slots c = some found)
    {capture : String × Binding}
    (hcapture : capture ∈ found) :
    ∃ entry ∈ slots, ∃ first,
      entry.2.captures w parent entry.1 ((c.slot? entry.1).getD .absent) = some first ∧
      capture ∈ first := by
  induction slots generalizing found with
  | nil =>
      cases hfound
      simp at hcapture
  | cons entry rest ih =>
      obtain ⟨first, others, hfirst, hothers, rfl⟩ := capturesInSlots_cons_eq_some_iff.mp hfound
      rcases List.mem_append.mp hcapture with hmem | hmem
      · exact ⟨entry, by simp, first, hfirst, hmem⟩
      · obtain ⟨entry', hentry', hrest⟩ := ih hothers hmem
        exact ⟨entry', by simp [hentry'], hrest⟩

theorem all_of_capturesInNodes
    {P : Node → Prop} {w : Wildcards} {tail : Option String} {ps cs : List Node}
    {found : List (String × Binding)}
    (ih : ∀ p ∈ ps, ∀ {c found}, p.captures w c = some found → c.All P →
      ∀ capture ∈ found, ∀ n ∈ capture.2.nodes, n.All P)
    (hfound : capturesInNodes w tail ps cs = some found)
    (hcs : ∀ c ∈ cs, c.All P) :
    ∀ capture ∈ found, ∀ n ∈ capture.2.nodes, n.All P := by
  induction ps generalizing cs found with
  | nil =>
      cases hfound
      simp
  | cons p ps ihps =>
      rcases capturesInNodes_cons_eq_some_iff.mp hfound with
        ⟨name, -, -, rfl⟩ | ⟨-, c, rest, first, others, rfl, hfirst, hothers, rfl⟩
      · simpa [Binding.nodes] using hcs
      · intro capture hcapture
        rcases List.mem_append.mp hcapture with hmem | hmem
        · exact ih p (by simp) hfirst (hcs c (by simp)) capture hmem
        · exact ihps (fun p hp => ih p (by simp [hp])) hothers
            (fun c hc => hcs c (by simp [hc])) capture hmem

theorem Slot.all_of_captures
    {P : Node → Prop} {w : Wildcards} {parent : Kind} {field : Field} {slot other : Slot}
    {found : List (String × Binding)}
    (ih : ∀ p ∈ slot.children, ∀ {c found}, p.captures w c = some found → c.All P →
      ∀ capture ∈ found, ∀ n ∈ capture.2.nodes, n.All P)
    (hfound : slot.captures w parent field other = some found)
    (hother : ∀ c ∈ other.children, c.All P) :
    ∀ capture ∈ found, ∀ n ∈ capture.2.nodes, n.All P := by
  cases slot <;> cases other <;> simp only [Slot.captures, reduceCtorEq] at hfound
  case node.node p c =>
    split_ifs at hfound
    · cases hfound
      simp
    · exact ih p (by simp [Slot.children]) hfound (hother c (by simp [Slot.children]))
  case list.list ps cs =>
    split_ifs at hfound
    exact all_of_capturesInNodes ih hfound hother
  case absent.absent =>
    cases hfound
    simp
  case scalar.scalar a b =>
    split_ifs at hfound
    cases hfound
    simp

/-- What a wildcard captures is part of the candidate. -/
theorem Node.all_of_captures
    {P : Node → Prop} {w : Wildcards} {p c : Node} {found : List (String × Binding)}
    (hfound : p.captures w c = some found) (hc : c.All P) :
    ∀ capture ∈ found, ∀ n ∈ capture.2.nodes, n.All P := by
  induction p using Node.childInduction generalizing c found with
  | hparent p ih =>
      cases hname : w.valueName? p with
      | some name =>
          rw [Node.captures_of_valueName hname] at hfound
          cases hfound
          simpa [Binding.nodes] using hc
      | none =>
          rcases ((Node.captures_eq_some_iff hname).mp hfound).2 with ⟨-, rfl⟩ | ⟨-, hslots⟩
          · simp
          · intro capture hcapture
            obtain ⟨entry, hentry, first, hfirst, hmem⟩ :=
              exists_slot_of_mem_capturesInSlots hslots hcapture
            refine Slot.all_of_captures (ih entry hentry) hfirst ?_ capture hmem
            exact hc.slot entry.1

/-! ## Binding captures -/

/-- Every capture has the same structure as what its name stands for. -/
def Bindings.Meets (s : Bindings) (found : List (String × Binding)) : Prop :=
  ∀ capture ∈ found, ∃ b, s.get? capture.1 = some b ∧ b.same capture.2 = true

theorem Bindings.bind_eq_iff {bs bs' : Bindings} {name : String} {b : Binding} :
    bs.bind name b = (true, bs') ↔
      (∃ earlier, bs.get? name = some earlier ∧ earlier.same b = true ∧ bs' = bs) ∨
        (bs.get? name = none ∧ bs' = bs ++ [(name, b)]) := by
  simp only [Bindings.bind]
  cases bs.get? name with
  | none => simp [@eq_comm _ bs']
  | some earlier => simp [@eq_comm _ bs']

/-- A name stands for the first thing that was captured under it. -/
theorem Bindings.get?_of_bindAll
    {bs bs' : Bindings} {found : List (String × Binding)}
    (hbind : bs.bindAll found = (true, bs'))
    (name : String) :
    bs'.get? name = (bs.get? name).or (found.lookup name) := by
  induction found generalizing bs with
  | nil =>
      cases hbind
      simp
  | cons capture rest ih =>
      obtain ⟨captured, b⟩ := capture
      obtain ⟨mid, hmid, hrest⟩ := andThen_eq_iff.mp hbind
      rw [ih hrest]
      rcases Bindings.bind_eq_iff.mp hmid with ⟨earlier, hearlier, -, rfl⟩ | ⟨hnone, rfl⟩
      · by_cases hname : name = captured
        · subst hname
          simp [hearlier]
        · rw [List.lookup_cons, beq_false_of_ne hname]
      · rw [Bindings.get?, List.lookup_append, Option.or_assoc, ← Bindings.get?,
          List.lookup_cons, List.lookup_cons]
        by_cases hname : name = captured
        · simp [hname]
        · simp [beq_false_of_ne hname]

/-- The bindings that were made agree with every capture, not only with the first one of each
name. -/
theorem Bindings.meets_of_bindAll
    {bs bs' : Bindings} {found : List (String × Binding)}
    (hself : ∀ capture ∈ found, capture.2.same capture.2 = true)
    (hbind : bs.bindAll found = (true, bs')) :
    bs'.Meets found := by
  induction found generalizing bs with
  | nil => simp [Bindings.Meets]
  | cons capture rest ih =>
      obtain ⟨name, b⟩ := capture
      obtain ⟨mid, hmid, hrest⟩ := andThen_eq_iff.mp hbind
      have hfirst : ∃ kept, mid.get? name = some kept ∧ kept.same b = true := by
        rcases Bindings.bind_eq_iff.mp hmid with ⟨earlier, hearlier, hsame, rfl⟩ | ⟨hnone, rfl⟩
        · exact ⟨earlier, hearlier, hsame⟩
        · refine ⟨b, ?_, hself (name, b) (by simp)⟩
          rw [Bindings.get?, List.lookup_append, ← Bindings.get?, hnone]
          simp
      intro capture hcapture
      rcases List.mem_cons.mp hcapture with rfl | hmem
      · obtain ⟨kept, hkept, hsame⟩ := hfirst
        refine ⟨kept, ?_, hsame⟩
        rw [Bindings.get?_of_bindAll hrest, hkept, Option.some_or]
      · exact ih (fun capture hmem => hself capture (by simp [hmem])) hrest capture hmem

/-! ## Comparing bindings -/

section Exact

variable {valueOf : String → Option Binary64}

/-- Bindings that are compared faithfully. -/
def Binding.Exact (valueOf : String → Option Binary64) (b : Binding) : Prop :=
  ∀ n ∈ b.nodes, n.Exact valueOf

theorem Binding.same_self {b : Binding} (hb : b.Exact valueOf) : b.same b = true := by
  cases b with
  | node n => exact Node.sameStructure_self (hb n (by simp [Binding.nodes]))
  | rest ns =>
      refine sameSequence_iff.mpr (List.forall₂_same.mpr fun n hn => ?_)
      exact Node.sameStructure_self (hb n hn)

theorem Binding.same_euclid
    {a b c : Binding}
    (ha : a.Exact valueOf)
    (hb : b.Exact valueOf)
    (hc : c.Exact valueOf)
    (hab : a.same b = true)
    (hac : a.same c = true) :
    b.same c = true := by
  cases a <;> cases b <;> cases c <;> simp only [Binding.same, Bool.false_eq_true] at hab hac ⊢
  case node.node.node x y z =>
    exact Node.sameStructure_euclid (ha x (by simp [Binding.nodes]))
      (hb y (by simp [Binding.nodes])) (hc z (by simp [Binding.nodes])) hab hac
  case rest.rest.rest xs ys zs =>
    refine sameSequence_euclid ?_ hab hac
    intro x hx y hy z hz
    exact Node.sameStructure_euclid (ha x hx) (hb y hy) (hc z hz)

/-- Captures that all agree with one assignment agree with each other, so nothing stops binding
them.  The invariant is that what is bound so far agrees with the assignment too. -/
theorem Bindings.bindAll_of_meets
    {s bs : Bindings} {found : List (String × Binding)}
    (hs : ∀ name b, s.get? name = some b → b.Exact valueOf)
    (hbs : ∀ bound ∈ bs, bound.2.Exact valueOf)
    (hfound : ∀ capture ∈ found, capture.2.Exact valueOf)
    (hmeetsbs : s.Meets bs)
    (hmeets : s.Meets found) :
    ∃ bs', bs.bindAll found = (true, bs') := by
  induction found generalizing bs with
  | nil => exact ⟨bs, rfl⟩
  | cons capture rest ih =>
      obtain ⟨name, b⟩ := capture
      rw [Bindings.Meets, List.forall_mem_cons] at hmeets
      rw [List.forall_mem_cons] at hfound
      obtain ⟨⟨value, hvalue, hsame⟩, hrest⟩ := hmeets
      simp only [Bindings.bindAll, andThen_eq_iff]
      cases hname : bs.get? name with
      | some earlier =>
          have hmem : (name, earlier) ∈ bs := mem_of_lookup_eq_some hname
          obtain ⟨value', hvalue', hearlier⟩ := hmeetsbs _ hmem
          cases hvalue.symm.trans hvalue'
          have hagree : earlier.same b = true :=
            Binding.same_euclid (hs name value hvalue) (hbs _ hmem) hfound.1 hearlier hsame
          obtain ⟨bs', hbs'⟩ := ih hbs hfound.2 hmeetsbs hrest
          exact ⟨bs', bs, Bindings.bind_eq_iff.mpr (.inl ⟨earlier, hname, hagree, rfl⟩), hbs'⟩
      | none =>
          have hmeetsmore : s.Meets (bs ++ [(name, b)]) := by
            intro bound hbound
            rcases List.mem_append.mp hbound with hold | hnew
            · exact hmeetsbs bound hold
            · cases List.mem_singleton.mp hnew
              exact ⟨value, hvalue, hsame⟩
          have hexact : ∀ bound ∈ bs ++ [(name, b)], bound.2.Exact valueOf := by
            intro bound hbound
            rcases List.mem_append.mp hbound with hold | hnew
            · exact hbs bound hold
            · cases List.mem_singleton.mp hnew
              exact hfound.1
          obtain ⟨bs', hbs'⟩ := ih hexact hfound.2 hmeetsmore hrest
          exact ⟨bs', _, Bindings.bind_eq_iff.mpr (.inr ⟨hname, rfl⟩), hbs'⟩

end Exact

end Graft
