import Graft.Number.Numeral
import Graft.Proofs.Captures
import Graft.Proofs.Expansion
import Graft.Proofs.Shape

/-!
# Unification is inverse to instantiation

A pattern unifies with a candidate exactly when it can be instantiated to something of the same
structure, and the bindings that are found are the only ones, up to structure, that do so.  Both
directions go through the captures: the nodes that instantiation puts in place of the wildcards
have to be like the nodes that the wildcards meet.
-/

namespace Graft

/-- The use of a wildcard that captures in this way. -/
def captureUse : String × Binding → WildcardUse
  | (name, .node _) => .value name
  | (name, .rest _) => .rest name

variable {w : Wildcards}

/-! ## One capture for each use of a wildcard -/

theorem map_captureUse_of_capturesInNodes
    {acceptsRest : Bool} {tail : Option String} {ps cs : List Node}
    {found : List (String × Binding)}
    (ih : ∀ p ∈ ps, (∀ use ∈ p.wildcardUses, w.Admits use) → ∀ {c found},
      p.captures w c = some found → found.map captureUse = p.wildcardUses)
    (hadmits : ∀ use ∈ wildcardUsesInNodes acceptsRest ps, w.Admits use)
    (htail : tail = ps.getLast?.bind w.restName?)
    (hfound : capturesInNodes w tail ps cs = some found) :
    found.map captureUse = wildcardUsesInNodes acceptsRest ps := by
  induction ps generalizing cs found with
  | nil =>
      cases hfound
      rfl
  | cons p ps ihps =>
      rcases capturesInNodes_cons_eq_some_iff.mp hfound with
        ⟨name, hname, rfl, rfl⟩ | ⟨hnot, c, rest, first, others, rfl, hfirst, hothers, rfl⟩
      · have hrest : w.restName? p = some name := by
          simpa [hname] using htail.symm
        rw [wildcardUsesInNodes_singleton_of_restName hadmits hrest]
        rfl
      · obtain ⟨hlast, htail⟩ := restName?_getLast_of_cons htail hnot
        have huses := wildcardUsesInNodes_cons_of_admits hadmits hlast
        rw [huses] at hadmits ⊢
        rw [List.forall_mem_append] at hadmits
        rw [List.map_append, ih p (by simp) hadmits.1 hfirst,
          ihps (fun p hp => ih p (by simp [hp])) hadmits.2 htail hothers]

theorem Slot.map_captureUse_of_captures
    {parent : Kind} {field : Field} {slot other : Slot} {found : List (String × Binding)}
    (ih : ∀ p ∈ slot.children, (∀ use ∈ p.wildcardUses, w.Admits use) → ∀ {c found},
      p.captures w c = some found → found.map captureUse = p.wildcardUses)
    (hadmits : ∀ use ∈ slot.wildcardUses parent field, w.Admits use)
    (hfound : slot.captures w parent field other = some found) :
    found.map captureUse = slot.wildcardUses parent field := by
  cases slot <;> cases other <;>
    simp only [Slot.captures, reduceCtorEq, Slot.wildcardUses] at hfound hadmits ⊢
  case node.node p c =>
    by_cases hcallee : isDirectCallee parent field p = true
    · simp only [hcallee, if_true] at hfound ⊢
      split_ifs at hfound
      cases hfound
      rfl
    · simp only [hcallee, Bool.false_eq_true, if_false] at hfound hadmits ⊢
      exact ih p (by simp [Slot.children]) hadmits hfound
  case list.list ps cs =>
    split_ifs at hfound
    exact map_captureUse_of_capturesInNodes ih hadmits rfl hfound
  case absent.absent =>
    cases hfound
    rfl
  case scalar.scalar a b =>
    split_ifs at hfound
    cases hfound
    rfl

theorem map_captureUse_of_capturesInSlots
    {parent : Kind} {slots : List (Field × Slot)} {c : Node} {found : List (String × Binding)}
    (ih : ∀ entry ∈ slots, ∀ p ∈ entry.2.children, (∀ use ∈ p.wildcardUses, w.Admits use) →
      ∀ {c found}, p.captures w c = some found → found.map captureUse = p.wildcardUses)
    (hadmits : ∀ use ∈ wildcardUsesInSlots parent slots, w.Admits use)
    (hfound : capturesInSlots w parent slots c = some found) :
    found.map captureUse = wildcardUsesInSlots parent slots := by
  induction slots generalizing found with
  | nil =>
      cases hfound
      rfl
  | cons entry rest ihrest =>
      obtain ⟨first, others, hfirst, hothers, rfl⟩ := capturesInSlots_cons_eq_some_iff.mp hfound
      rw [wildcardUsesInSlots, List.forall_mem_append] at hadmits
      rw [wildcardUsesInSlots, List.map_append,
        Slot.map_captureUse_of_captures (ih entry (by simp)) hadmits.1 hfirst,
        ihrest (fun entry hentry => ih entry (by simp [hentry])) hadmits.2 hothers]

/-- The captures are the uses of wildcards, in their order.  A block that fits every block is not
walked through, so it must not use any. -/
theorem Node.map_captureUse_of_captures
    {p c : Node} {found : List (String × Binding)}
    (hproper : w.Proper)
    (hblocks : p.All fun n => n.IsEmptyBlock → n.wildcardUses = [])
    (hadmits : ∀ use ∈ p.wildcardUses, w.Admits use)
    (hfound : p.captures w c = some found) :
    found.map captureUse = p.wildcardUses := by
  induction p using Node.childInduction generalizing c found with
  | hparent p ih =>
      cases hname : w.valueName? p with
      | some name =>
          rw [Node.captures_of_valueName hname] at hfound
          cases hfound
          obtain ⟨hname, hrole⟩ := Wildcards.valueName?_eq_some_iff.mp hname
          have hwildcard : p.wildcardName? = some name :=
            Option.filter_eq_some_iff.mpr ⟨hname, hproper name _ hrole⟩
          rw [Node.wildcardUses_of_wildcardName hwildcard]
          rfl
      | none =>
          have hnone := Wildcards.wildcardName?_eq_none hadmits hname
          rcases ((Node.captures_eq_some_iff hname).mp hfound).2 with ⟨hempty, rfl⟩ | ⟨-, hslots⟩
          · rw [hblocks.here hempty, List.map_nil]
          · rw [Node.wildcardUses_eq hnone] at hadmits ⊢
            refine map_captureUse_of_capturesInSlots ?_ hadmits hslots
            intro entry hentry q hq hadmits c found hfound
            exact ih entry hentry q hq (hblocks.child hentry hq) hadmits hfound

/-! ## From captures to an instance -/

/-- Instantiation turns the pattern into a node of the same structure as the candidate. -/
def Node.Becomes (s : Bindings) (p c : Node) : Prop :=
  ∃ n, p.expand s = .ok (.one n) ∧ n.sameStructure c = true

variable {s : Bindings}

theorem Bindings.meets_append {front back : List (String × Binding)} :
    s.Meets (front ++ back) ↔ s.Meets front ∧ s.Meets back :=
  List.forall_mem_append

theorem lengthsFit_cons_cons (tail : Option String) (p c : Node) (ps cs : List Node) :
    lengthsFit tail (p :: ps) (c :: cs) = lengthsFit tail ps cs := by
  cases tail <;> simp [lengthsFit]

theorem expandNodes_of_captures
    {acceptsRest : Bool} {tail : Option String} {ps cs : List Node}
    {found : List (String × Binding)}
    (hcovers : s.Covers w)
    (ih : ∀ p ∈ ps, (∀ use ∈ p.wildcardUses, w.Admits use) → ∀ c ∈ cs, ∀ {found},
      p.captures w c = some found → s.Meets found → p.Becomes s c)
    (hadmits : ∀ use ∈ wildcardUsesInNodes acceptsRest ps, w.Admits use)
    (htail : tail = ps.getLast?.bind w.restName?)
    (hlength : lengthsFit tail ps cs = true)
    (hfound : capturesInNodes w tail ps cs = some found)
    (hmeets : s.Meets found) :
    ∃ ns, expandNodes s ps = .ok ns ∧ sameSequence ns cs = true := by
  induction ps generalizing cs found with
  | nil =>
      have hcs : cs = [] := by
        simpa [htail, lengthsFit, eq_comm] using hlength
      subst hcs
      exact ⟨[], rfl, rfl⟩
  | cons p ps ihps =>
      rcases capturesInNodes_cons_eq_some_iff.mp hfound with
        ⟨name, hname, rfl, rfl⟩ | ⟨hnot, c, rest, first, others, rfl, hfirst, hothers, rfl⟩
      · -- a rest wildcard expands to what is left of the candidates, which may be nothing
        have hrest : w.restName? p = some name := by
          simpa [hname] using htail.symm
        obtain ⟨ns, hns, hexpansion⟩ := Node.expansion?_of_restName hcovers hrest
        obtain ⟨b, hb, hsame⟩ := hmeets (name, .rest cs) (by simp)
        cases hns.symm.trans hb
        refine ⟨ns ++ [], ?_, by simpa [Binding.same] using hsame⟩
        exact expandNodes_cons_eq_ok_iff.mpr
          ⟨_, [], Node.expand_of_expansion hexpansion, rfl, rfl⟩
      · obtain ⟨hlast, htail⟩ := restName?_getLast_of_cons htail hnot
        rw [wildcardUsesInNodes_cons_of_admits hadmits hlast, List.forall_mem_append] at hadmits
        rw [Bindings.meets_append] at hmeets
        rw [lengthsFit_cons_cons] at hlength
        obtain ⟨n, hn, hsame⟩ := ih p (by simp) hadmits.1 c (by simp) hfirst hmeets.1
        obtain ⟨ns, hns, hsames⟩ :=
          ihps (fun p hp hadmits c hc => ih p (by simp [hp]) hadmits c (by simp [hc]))
            hadmits.2 htail hlength hothers hmeets.2
        refine ⟨n :: ns, expandNodes_cons_eq_ok_iff.mpr ⟨_, ns, hn, hns, rfl⟩, ?_⟩
        simp [sameSequence, hsame, hsames]

theorem Slot.expand_of_captures
    {parent : Node} {field : Field} {slot other : Slot} {found : List (String × Binding)}
    (hcovers : s.Covers w)
    (ih : ∀ p ∈ slot.children, (∀ use ∈ p.wildcardUses, w.Admits use) → ∀ c ∈ other.children,
      ∀ {found}, p.captures w c = some found → s.Meets found → p.Becomes s c)
    (hadmits : ∀ use ∈ slot.wildcardUses parent.kind field, w.Admits use)
    (hfits : ∀ c ∈ other.children,
      fitsSlot parent.kind (parent.flag .computed) field c.kind = true)
    (hfound : slot.captures w parent.kind field other = some found)
    (hmeets : s.Meets found) :
    ∃ slot', slot.expand s parent field = .ok slot' ∧ slot'.sameStructure other = true := by
  cases slot <;> cases other <;>
    simp only [Slot.captures, reduceCtorEq, Slot.wildcardUses] at hfound hadmits
  case node.node p c =>
    by_cases hcallee : isDirectCallee parent.kind field p = true
    · simp only [hcallee, if_true] at hfound
      split_ifs at hfound with hsame
      exact ⟨.node p, by simp [Slot.expand, hcallee], hsame⟩
    · simp only [hcallee, Bool.false_eq_true, if_false] at hfound hadmits
      obtain ⟨n, hn, hsame⟩ :=
        ih p (by simp [Slot.children]) hadmits c (by simp [Slot.children]) hfound hmeets
      have hkind : n.kind = c.kind := (Node.sameStructure_iff.mp hsame).1
      refine ⟨.node n, ?_, hsame⟩
      rw [Slot.expand_node_eq_ok_iff (by simpa using hcallee)]
      exact ⟨n, hn, by rw [hkind]; exact hfits c (by simp [Slot.children]), rfl⟩
  case list.list ps cs =>
    split_ifs at hfound with hlength
    obtain ⟨ns, hns, hsame⟩ :=
      expandNodes_of_captures hcovers ih hadmits rfl hlength hfound hmeets
    refine ⟨.list ns, Slot.expand_list_eq_ok_iff.mpr ⟨ns, hns, ?_, rfl⟩, hsame⟩
    intro n hn
    obtain ⟨c, hc, hsame⟩ := exists_mem_of_sameSequence hsame hn
    rw [(Node.sameStructure_iff.mp hsame).1]
    exact hfits c hc
  case absent.absent => exact ⟨.absent, rfl, rfl⟩
  case scalar.scalar a b =>
    split_ifs at hfound with hsame
    exact ⟨.scalar a, rfl, hsame⟩

theorem expandSlots_of_captures
    {parent c : Node} {slots : List (Field × Slot)} {found : List (String × Binding)}
    (hcovers : s.Covers w)
    (hc : c.fields.Nodup)
    (ih : ∀ entry ∈ slots, ∀ p ∈ entry.2.children, (∀ use ∈ p.wildcardUses, w.Admits use) →
      ∀ c' ∈ ((c.slot? entry.1).getD .absent).children, ∀ {found},
      p.captures w c' = some found → s.Meets found → p.Becomes s c')
    (hadmits : ∀ use ∈ wildcardUsesInSlots parent.kind slots, w.Admits use)
    (hfits : ∀ entry ∈ c.slots, ∀ c' ∈ entry.2.children,
      fitsSlot parent.kind (parent.flag .computed) entry.1 c'.kind = true)
    (hfields : ∀ entry ∈ slots, entry.1 ∈ c.fields)
    (hfound : capturesInSlots w parent.kind slots c = some found)
    (hmeets : s.Meets found) :
    ∃ slots', expandSlots s parent slots = .ok slots' ∧ slots'.length = slots.length ∧
      sameSlots slots' c.slots = true := by
  induction slots generalizing found with
  | nil => exact ⟨[], rfl, rfl, rfl⟩
  | cons entry rest ihrest =>
      obtain ⟨first, others, hfirst, hothers, rfl⟩ := capturesInSlots_cons_eq_some_iff.mp hfound
      rw [wildcardUsesInSlots, List.forall_mem_append] at hadmits
      rw [Bindings.meets_append] at hmeets
      rw [List.forall_mem_cons] at hfields ih
      obtain ⟨slots', hslots', hlength, hsames⟩ :=
        ihrest ih.2 hadmits.2 hfields.2 hothers hmeets.2
      obtain ⟨⟨field, other⟩, hother, hfield⟩ := List.mem_map.mp hfields.1
      obtain rfl : field = entry.1 := hfield
      have hlookup : c.slot? entry.1 = some other := (Node.slot?_eq_some_iff hc).mpr hother
      rw [hlookup] at hfirst ih
      obtain ⟨slot', hslot', hsame⟩ :=
        Slot.expand_of_captures hcovers ih.1 hadmits.1 (hfits _ hother) hfirst hmeets.1
      refine ⟨(entry.1, slot') :: slots',
        expandSlots_cons_eq_ok_iff.mpr ⟨slot', slots', hslot', hslots', rfl⟩,
        by simp [hlength], ?_⟩
      rw [sameSlots_iff, List.forall_mem_cons]
      exact ⟨⟨other, hlookup, hsame⟩, sameSlots_iff.mp hsames⟩

theorem exists_captures_of_mem_slots
    {parent : Kind} {slots : List (Field × Slot)} {c : Node} {found : List (String × Binding)}
    (hfound : capturesInSlots w parent slots c = some found)
    {field : Field} {slot : Slot}
    (hslot : (field, slot) ∈ slots) :
    ∃ first, slot.captures w parent field ((c.slot? field).getD .absent) = some first := by
  induction slots generalizing found with
  | nil => simp at hslot
  | cons entry rest ih =>
      obtain ⟨first, others, hfirst, hothers, -⟩ := capturesInSlots_cons_eq_some_iff.mp hfound
      rcases List.mem_cons.mp hslot with rfl | hslot
      · exact ⟨first, hfirst⟩
      · exact ih hothers hslot

/-- The flag in a slot; anything else counts as unset. -/
def Slot.isSet : Slot → Bool
  | scalar (.bool b) => b
  | _ => false

theorem Node.flag_eq_isSet (n : Node) (field : Field) :
    n.flag field = ((n.slot? field).getD .absent).isSet := by
  unfold Node.flag Node.scalar?
  cases n.slot? field with
  | none => rfl
  | some slot =>
      cases slot with
      | scalar s => cases s <;> rfl
      | _ => rfl

theorem Slot.isSet_eq_of_captures
    {parent : Kind} {field : Field} {slot other : Slot} {found : List (String × Binding)}
    (hfound : slot.captures w parent field other = some found) :
    slot.isSet = other.isSet := by
  cases slot <;> cases other <;> simp only [Slot.captures, reduceCtorEq] at hfound
  case scalar.scalar a b =>
    split_ifs at hfound with hsame
    cases a <;> cases b <;> simp_all [Scalar.same, Slot.isSet]
  all_goals rfl

theorem Node.flag_eq_of_captures
    {p c : Node} {found : List (String × Binding)}
    (hp : p.HasKindFields)
    (hc : c.HasKindFields)
    (hkind : p.kind = c.kind)
    (hfound : capturesInSlots w p.kind p.slots c = some found)
    (field : Field) :
    p.flag field = c.flag field := by
  rw [Node.flag_eq_isSet, Node.flag_eq_isSet]
  cases hslot : p.slot? field with
  | some slot =>
      obtain ⟨first, hfirst⟩ :=
        exists_captures_of_mem_slots hfound (Node.mem_slots_of_slot? hslot)
      exact Slot.isSet_eq_of_captures hfirst
  | none =>
      cases hother : c.slot? field with
      | none => rfl
      | some other =>
          have hfield : field ∈ p.fields := by
            rw [(hp.perm hc hkind).mem_iff]
            exact List.mem_map.mpr ⟨_, Node.mem_slots_of_slot? hother, rfl⟩
          obtain ⟨⟨_, slot⟩, hentry, rfl⟩ := List.mem_map.mp hfield
          rw [(Node.slot?_eq_some_iff hp.nodup).mpr hentry] at hslot
          cases hslot

/-- Bindings that agree with everything captured turn the pattern into the candidate. -/
theorem Node.becomes_of_captures
    {p c : Node} {found : List (String × Binding)}
    (hcovers : s.Covers w)
    (hproper : w.Proper)
    (hfields : p.All Node.HasKindFields)
    (hblocks : p.All fun n => ¬ n.IsEmptyBlock)
    (hadmits : ∀ use ∈ p.wildcardUses, w.Admits use)
    (hcfields : c.All Node.HasKindFields)
    (hcnames : c.All Node.NamesFit)
    (hfound : p.captures w c = some found)
    (hmeets : s.Meets found) :
    p.Becomes s c := by
  induction p using Node.childInduction generalizing c found with
  | hparent p ih =>
      cases hname : w.valueName? p with
      | some name =>
          rw [Node.captures_of_valueName hname] at hfound
          cases hfound
          obtain ⟨n, hn, hexpansion⟩ := Node.expansion?_of_valueName hcovers hname
          obtain ⟨b, hb, hsame⟩ := hmeets (name, .node c) (by simp)
          cases hn.symm.trans hb
          exact ⟨n, Node.expand_of_expansion hexpansion, hsame⟩
      | none =>
          have hwildcard := Wildcards.wildcardName?_eq_none hadmits hname
          have hexpansion := Node.expansion?_eq_none hcovers hproper hadmits hname
          obtain ⟨hkind, ⟨hempty, -⟩ | ⟨-, hslots⟩⟩ := (Node.captures_eq_some_iff hname).mp hfound
          · exact absurd hempty hblocks.here
          -- whether a slot takes a name depends on the parent, so the flags have to agree as well
          have hflag := Node.flag_eq_of_captures hfields.here hcfields.here hkind hslots .computed
          have hperm := hfields.here.perm hcfields.here hkind
          rw [Node.wildcardUses_eq hwildcard] at hadmits
          obtain ⟨slots, hexpand, hlength, hsame⟩ :
              ∃ slots, expandSlots s p p.slots = .ok slots ∧ slots.length = p.slots.length ∧
                sameSlots slots c.slots = true := by
            refine expandSlots_of_captures hcovers hcfields.here.nodup ?_ hadmits ?_ ?_ hslots
              hmeets
            · intro entry hentry q hq hadmits c' hc' found hfound hmeets
              exact ih entry hentry q hq (hfields.child hentry hq) (hblocks.child hentry hq)
                hadmits (hcfields.slot _ c' hc') (hcnames.slot _ c' hc') hfound hmeets
            · rw [hkind, hflag]
              exact hcnames.here
            · intro entry hentry
              exact hperm.mem_iff.mp (List.mem_map.mpr ⟨entry, hentry, rfl⟩)
          refine ⟨.mk p.kind p.span slots,
            (Node.expand_eq_ok_iff hexpansion).mpr ⟨slots, hexpand, rfl⟩,
            Node.sameStructure_iff.mpr ⟨hkind, ?_, sameSlots_iff.mp hsame⟩⟩
          have hcount : p.slots.length = c.slots.length := by
            simpa [Node.fields] using hperm.length_eq
          simpa using hlength.trans hcount

/-! ## From an instance to captures -/

/-- Outside of the end of a list a node of a pattern expands to one node. -/
theorem Node.expand_eq_one
    {p : Node} {expansion : Expansion}
    (hcovers : s.Covers w)
    (hproper : w.Proper)
    (hadmits : ∀ use ∈ p.wildcardUses, w.Admits use)
    (hexpand : p.expand s = .ok expansion) :
    ∃ n, expansion = .one n := by
  cases hname : w.valueName? p with
  | some name =>
      obtain ⟨n, -, hexpansion⟩ := Node.expansion?_of_valueName hcovers hname
      rw [Node.expand_of_expansion hexpansion] at hexpand
      cases hexpand
      exact ⟨n, rfl⟩
  | none =>
      have hexpansion := Node.expansion?_eq_none hcovers hproper hadmits hname
      obtain ⟨slots, -, rfl⟩ := (Node.expand_eq_ok_iff hexpansion).mp hexpand
      exact ⟨_, rfl⟩

theorem captures_of_expandNodes
    {acceptsRest : Bool} {tail : Option String} {ps cs ns : List Node}
    (hcovers : s.Covers w)
    (hproper : w.Proper)
    (ih : ∀ p ∈ ps, (∀ use ∈ p.wildcardUses, w.Admits use) → ∀ {c}, p.Becomes s c →
      ∃ found, p.captures w c = some found ∧ s.Meets found)
    (hadmits : ∀ use ∈ wildcardUsesInNodes acceptsRest ps, w.Admits use)
    (htail : tail = ps.getLast?.bind w.restName?)
    (hexpand : expandNodes s ps = .ok ns)
    (hsame : sameSequence ns cs = true) :
    lengthsFit tail ps cs = true ∧
      ∃ found, capturesInNodes w tail ps cs = some found ∧ s.Meets found := by
  induction ps generalizing cs ns with
  | nil =>
      cases hexpand
      cases cs with
      | nil => exact ⟨by simp [htail, lengthsFit], [], rfl, by simp [Bindings.Meets]⟩
      | cons c cs => simp [sameSequence] at hsame
  | cons p ps ihps =>
      obtain ⟨first, others, hfirst, hothers, rfl⟩ := expandNodes_cons_eq_ok_iff.mp hexpand
      by_cases hnot : ps = [] → tail = none
      · obtain ⟨hlast, htail⟩ := restName?_getLast_of_cons htail hnot
        rw [wildcardUsesInNodes_cons_of_admits hadmits hlast, List.forall_mem_append] at hadmits
        obtain ⟨n, rfl⟩ := Node.expand_eq_one hcovers hproper hadmits.1 hfirst
        cases cs with
        | nil => simp [Expansion.nodes, sameSequence] at hsame
        | cons c cs =>
            simp only [Expansion.nodes, List.singleton_append, sameSequence,
              Bool.and_eq_true] at hsame
            obtain ⟨front, hfront, hmeets⟩ := ih p (by simp) hadmits.1 ⟨n, hfirst, hsame.1⟩
            obtain ⟨hlength, back, hback, hmeets'⟩ :=
              ihps (fun p hp => ih p (by simp [hp])) hadmits.2 htail hothers hsame.2
            refine ⟨by rwa [lengthsFit_cons_cons], front ++ back, ?_,
              Bindings.meets_append.mpr ⟨hmeets, hmeets'⟩⟩
            exact capturesInNodes_cons_eq_some_iff.mpr
              (.inr ⟨hnot, c, cs, front, back, rfl, hfront, hback, rfl⟩)
      · obtain ⟨rfl, hsome⟩ := Classical.not_imp.mp hnot
        obtain ⟨name, hname⟩ := Option.ne_none_iff_exists'.mp hsome
        have hrest : w.restName? p = some name := by
          simpa [hname] using htail.symm
        obtain ⟨rests, hrests, hexpansion⟩ := Node.expansion?_of_restName hcovers hrest
        rw [Node.expand_of_expansion hexpansion] at hfirst
        cases hfirst
        cases hothers
        refine ⟨by simp [hname, lengthsFit], [(name, .rest cs)], ?_, ?_⟩
        · exact capturesInNodes_cons_eq_some_iff.mpr (.inl ⟨name, hname, rfl, rfl⟩)
        · simpa [Bindings.Meets, hrests, Binding.same, Expansion.nodes] using hsame

theorem Slot.captures_of_expand
    {parent : Node} {field : Field} {slot slot' other : Slot}
    (hcovers : s.Covers w)
    (hproper : w.Proper)
    (ih : ∀ p ∈ slot.children, (∀ use ∈ p.wildcardUses, w.Admits use) → ∀ {c}, p.Becomes s c →
      ∃ found, p.captures w c = some found ∧ s.Meets found)
    (hadmits : ∀ use ∈ slot.wildcardUses parent.kind field, w.Admits use)
    (hexpand : slot.expand s parent field = .ok slot')
    (hsame : slot'.sameStructure other = true) :
    ∃ found, slot.captures w parent.kind field other = some found ∧ s.Meets found := by
  have hnil : s.Meets [] := by simp [Bindings.Meets]
  cases slot with
  | node p =>
      by_cases hcallee : isDirectCallee parent.kind field p = true
      · simp only [Slot.expand, hcallee, if_true] at hexpand
        cases hexpand
        cases other <;> simp only [Slot.sameStructure, Bool.false_eq_true] at hsame
        exact ⟨[], by simp [Slot.captures, hcallee, hsame], hnil⟩
      · have hcallee : isDirectCallee parent.kind field p = false := by simpa using hcallee
        simp only [Slot.wildcardUses, hcallee, Bool.false_eq_true, if_false] at hadmits
        obtain ⟨n, hn, -, rfl⟩ := (Slot.expand_node_eq_ok_iff hcallee).mp hexpand
        cases other <;> simp only [Slot.sameStructure, Bool.false_eq_true] at hsame
        obtain ⟨found, hfound, hmeets⟩ := ih p (by simp [Slot.children]) hadmits ⟨n, hn, hsame⟩
        exact ⟨found, by simp [Slot.captures, hcallee, hfound], hmeets⟩
  | list ps =>
      obtain ⟨ns, hns, -, rfl⟩ := Slot.expand_list_eq_ok_iff.mp hexpand
      cases other <;> simp only [Slot.sameStructure, Bool.false_eq_true] at hsame
      obtain ⟨hlength, found, hfound, hmeets⟩ :=
        captures_of_expandNodes hcovers hproper ih hadmits rfl hns hsame
      exact ⟨found, (if_pos hlength).trans hfound, hmeets⟩
  | absent =>
      cases hexpand
      cases other <;> simp only [Slot.sameStructure, Bool.false_eq_true] at hsame
      exact ⟨[], rfl, hnil⟩
  | scalar a =>
      cases hexpand
      cases other <;> simp only [Slot.sameStructure, Bool.false_eq_true] at hsame
      exact ⟨[], by simp [Slot.captures, hsame], hnil⟩

theorem captures_of_expandSlots
    {parent c : Node} {slots slots' : List (Field × Slot)}
    (hcovers : s.Covers w)
    (hproper : w.Proper)
    (ih : ∀ entry ∈ slots, ∀ p ∈ entry.2.children, (∀ use ∈ p.wildcardUses, w.Admits use) →
      ∀ {c}, p.Becomes s c → ∃ found, p.captures w c = some found ∧ s.Meets found)
    (hadmits : ∀ use ∈ wildcardUsesInSlots parent.kind slots, w.Admits use)
    (hexpand : expandSlots s parent slots = .ok slots')
    (hsame : sameSlots slots' c.slots = true) :
    ∃ found, capturesInSlots w parent.kind slots c = some found ∧ s.Meets found := by
  induction slots generalizing slots' with
  | nil => exact ⟨[], rfl, by simp [Bindings.Meets]⟩
  | cons entry rest ihrest =>
      obtain ⟨first, others, hfirst, hothers, rfl⟩ := expandSlots_cons_eq_ok_iff.mp hexpand
      rw [wildcardUsesInSlots, List.forall_mem_append] at hadmits
      rw [List.forall_mem_cons] at ih
      rw [sameSlots_iff, List.forall_mem_cons] at hsame
      obtain ⟨⟨other, hother, hsamefirst⟩, hsamerest⟩ := hsame
      obtain ⟨front, hfront, hmeets⟩ :=
        Slot.captures_of_expand hcovers hproper ih.1 hadmits.1 hfirst hsamefirst
      obtain ⟨back, hback, hmeets'⟩ :=
        ihrest ih.2 hadmits.2 hothers (sameSlots_iff.mpr hsamerest)
      refine ⟨front ++ back, capturesInSlots_cons_eq_some_iff.mpr ⟨front, back, ?_, hback, rfl⟩,
        Bindings.meets_append.mpr ⟨hmeets, hmeets'⟩⟩
      have hlookup : c.slot? entry.1 = some other := hother
      rwa [hlookup]

/-- Bindings that turn the pattern into the candidate agree with everything captured. -/
theorem Node.captures_of_becomes
    {p c : Node}
    (hcovers : s.Covers w)
    (hproper : w.Proper)
    (hadmits : ∀ use ∈ p.wildcardUses, w.Admits use)
    (hbecomes : p.Becomes s c) :
    ∃ found, p.captures w c = some found ∧ s.Meets found := by
  induction p using Node.childInduction generalizing c with
  | hparent p ih =>
      obtain ⟨n, hn, hsame⟩ := hbecomes
      cases hname : w.valueName? p with
      | some name =>
          obtain ⟨value, hvalue, hexpansion⟩ := Node.expansion?_of_valueName hcovers hname
          rw [Node.expand_of_expansion hexpansion] at hn
          cases hn
          refine ⟨_, Node.captures_of_valueName hname c, ?_⟩
          simpa [Bindings.Meets, hvalue, Binding.same] using hsame
      | none =>
          have hwildcard := Wildcards.wildcardName?_eq_none hadmits hname
          have hexpansion := Node.expansion?_eq_none hcovers hproper hadmits hname
          obtain ⟨slots, hslots, heq⟩ := (Node.expand_eq_ok_iff hexpansion).mp hn
          cases heq
          rw [Node.wildcardUses_eq hwildcard] at hadmits
          obtain ⟨hkind, -, hsames⟩ := Node.sameStructure_iff.mp hsame
          by_cases hempty : p.IsEmptyBlock
          · refine ⟨[], (Node.captures_eq_some_iff hname).mpr ⟨hkind, .inl ⟨hempty, rfl⟩⟩, ?_⟩
            simp [Bindings.Meets]
          · obtain ⟨found, hfound, hmeets⟩ :=
              captures_of_expandSlots hcovers hproper
                (fun entry hentry q hq hadmits c => ih entry hentry q hq hadmits)
                hadmits hslots (sameSlots_iff.mpr hsames)
            exact ⟨found, (Node.captures_eq_some_iff hname).mpr
              ⟨hkind, .inr ⟨hempty, hfound⟩⟩, hmeets⟩

/-! ## Sequences of statements -/

/-- The bindings give each wildcard what its role asks for and turn the pattern into statements of
the same structure as the candidate. -/
def Bindings.Solves (s : Bindings) (w : Wildcards) (pattern candidate : List Node) : Prop :=
  s.Covers w ∧ ∃ body, (Fragment.statements pattern).instantiate s = .ok (.statements body) ∧
    sameSequence body candidate = true

theorem Fragment.instantiate_statements_eq_ok_iff {pattern body : List Node} :
    (Fragment.statements pattern).instantiate s = .ok (.statements body) ↔
      expandNodes s pattern = .ok body := by
  simp [Fragment.instantiate, bind_eq_ok_iff, pure, Except.pure]

theorem unifySequence_eq_iff {pattern candidate : List Node} {bs bs' : Bindings} :
    unifySequence w pattern candidate bs = (true, bs') ↔
      pattern.length = candidate.length ∧
        ∃ found, capturesInNodes w none pattern candidate = some found ∧
          bs.bindAll found = (true, bs') := by
  unfold unifySequence
  split_ifs with hlength
  · rw [binds_capturesInNodes w none pattern candidate bs bs']
    simp [hlength]
  · simp [hlength]

section Sequence

variable {pattern candidate : List Node} {found : List (String × Binding)}

theorem Bindings.solves_of_captures
    (hcovers : s.Covers w)
    (hcollect : Wildcards.collect pattern = .ok w)
    (hfields : ∀ p ∈ pattern, p.All Node.HasKindFields)
    (hblocks : ∀ p ∈ pattern, p.All fun n => ¬ n.IsEmptyBlock)
    (hcfields : ∀ c ∈ candidate, c.All Node.HasKindFields)
    (hcnames : ∀ c ∈ candidate, c.All Node.NamesFit)
    (hlength : pattern.length = candidate.length)
    (hfound : capturesInNodes w none pattern candidate = some found)
    (hmeets : s.Meets found) :
    s.Solves w pattern candidate := by
  have hadmits := Wildcards.admits_of_collect hcollect
  obtain ⟨body, hbody, hsame⟩ :
      ∃ body, expandNodes s pattern = .ok body ∧ sameSequence body candidate = true := by
    refine expandNodes_of_captures hcovers ?_ hadmits (restName?_getLast_eq_none hadmits).symm
      (by simp [lengthsFit, hlength]) hfound hmeets
    intro p hp hadmits c hc found hfound hmeets
    exact Node.becomes_of_captures hcovers (Wildcards.proper_of_collect hcollect)
      (hfields p hp) (hblocks p hp) hadmits (hcfields c hc) (hcnames c hc) hfound hmeets
  exact ⟨hcovers, body, Fragment.instantiate_statements_eq_ok_iff.mpr hbody, hsame⟩

theorem Bindings.Solves.captures
    (hcollect : Wildcards.collect pattern = .ok w) (hsolves : s.Solves w pattern candidate) :
    pattern.length = candidate.length ∧
      ∃ found, capturesInNodes w none pattern candidate = some found ∧ s.Meets found := by
  obtain ⟨hcovers, body, hbody, hsame⟩ := hsolves
  have hadmits := Wildcards.admits_of_collect hcollect
  have hproper := Wildcards.proper_of_collect hcollect
  obtain ⟨hlength, hfound⟩ :=
    captures_of_expandNodes hcovers hproper
      (fun p _ hadmits c => Node.captures_of_becomes hcovers hproper hadmits) hadmits
      (restName?_getLast_eq_none hadmits).symm
      (Fragment.instantiate_statements_eq_ok_iff.mp hbody) hsame
  exact ⟨by simpa [lengthsFit] using hlength, hfound⟩

/-- Every wildcard captures something of its role, so binding all captures covers the pattern. -/
theorem Bindings.covers_of_captures
    {bs : Bindings}
    (hcollect : Wildcards.collect pattern = .ok w)
    (huses : found.map captureUse = wildcardUsesInNodes false pattern)
    (hbind : Bindings.bindAll [] found = (true, bs)) :
    bs.Covers w := by
  intro name
  have hget : bs.get? name = found.lookup name := Bindings.get?_of_bindAll hbind name
  rw [hget]
  cases hlookup : found.lookup name with
  | some b =>
      have hmem : captureUse (name, b) ∈ wildcardUsesInNodes false pattern := by
        rw [← huses]
        exact List.mem_map.mpr ⟨_, mem_of_lookup_eq_some hlookup, rfl⟩
      have hrole := Wildcards.admits_of_collect hcollect _ hmem
      cases b <;> exact hrole.symm
  | none =>
      symm
      by_contra hsome
      obtain ⟨role, hrole⟩ := Option.ne_none_iff_exists'.mp hsome
      obtain ⟨use, huse, hname⟩ := Wildcards.exists_use_of_collect hcollect hrole
      rw [← huses] at huse
      obtain ⟨⟨other, b⟩, hcapture, rfl⟩ := List.mem_map.mp huse
      have hother : other = name := by
        cases b <;> exact hname
      have hne := List.lookup_eq_none_iff.mp hlookup _ hcapture
      simp [hother] at hne

/-- What a successful unification has bound: the first capture of each name, every part of it
taken from the candidate. -/
theorem unifySequence_eq_true
    {valueOf : String → Option Binary64} {bs : Bindings}
    (hcollect : Wildcards.collect pattern = .ok w)
    (hfields : ∀ p ∈ pattern, p.All Node.HasKindFields)
    (hblocks : ∀ p ∈ pattern, p.All fun n => ¬ n.IsEmptyBlock)
    (hcandidate : ∀ c ∈ candidate, c.WellFormed valueOf)
    (hunify : unifySequence w pattern candidate = (true, bs)) :
    bs.Solves w pattern candidate ∧ (∀ name b, bs.get? name = some b → b.Exact valueOf) ∧
      ∃ found, capturesInNodes w none pattern candidate = some found ∧
        ∀ name, bs.get? name = found.lookup name := by
  obtain ⟨hlength, found, hfound, hbind⟩ := unifySequence_eq_iff.mp hunify
  have hadmits := Wildcards.admits_of_collect hcollect
  have hproper := Wildcards.proper_of_collect hcollect
  have hexact : ∀ capture ∈ found, capture.2.Exact valueOf :=
    all_of_capturesInNodes (fun p _ _ _ => Node.all_of_captures) hfound
      fun c hc => (hcandidate c hc).exact
  have hunused : ∀ p ∈ pattern, p.All fun n => n.IsEmptyBlock → n.wildcardUses = [] :=
    fun p hp => (hblocks p hp).imp fun _ hnot hempty => absurd hempty hnot
  have huses : found.map captureUse = wildcardUsesInNodes false pattern :=
    map_captureUse_of_capturesInNodes
      (fun p hp hadmits _ _ => Node.map_captureUse_of_captures hproper (hunused p hp) hadmits)
      hadmits (restName?_getLast_eq_none hadmits).symm hfound
  have hget : ∀ name, bs.get? name = found.lookup name := Bindings.get?_of_bindAll hbind
  refine ⟨?_, ?_, found, hfound, hget⟩
  · refine Bindings.solves_of_captures (Bindings.covers_of_captures hcollect huses hbind) hcollect
      hfields hblocks (fun c hc => (hcandidate c hc).fields) (fun c hc => (hcandidate c hc).names)
      hlength hfound ?_
    exact Bindings.meets_of_bindAll
      (fun capture hcapture => Binding.same_self (hexact capture hcapture)) hbind
  · intro name b hb
    rw [hget] at hb
    exact hexact _ (mem_of_lookup_eq_some hb)

end Sequence

/-- Unification of a sequence of statements is inverse to instantiation.  It succeeds exactly when
some assignment to the wildcards turns the pattern into the candidate; the bindings it makes are
such an assignment; and every other one agrees with them. -/
theorem unifySequence_inverts_instantiate
    {valueOf : String → Option Binary64} {pattern candidate : List Node} {w : Wildcards}
    (hcollect : Wildcards.collect pattern = .ok w)
    (hpattern : ∀ p ∈ pattern, p.All Node.HasKindFields)
    (hblocks : ∀ p ∈ pattern, p.All fun n => ¬ n.IsEmptyBlock)
    (hcandidate : ∀ c ∈ candidate, c.WellFormed valueOf) :
    ((unifySequence w pattern candidate).1 = true ↔
        ∃ s : Bindings, (∀ name b, s.get? name = some b → b.Exact valueOf) ∧
          s.Solves w pattern candidate) ∧
      ((unifySequence w pattern candidate).1 = true →
        (unifySequence w pattern candidate).2.Solves w pattern candidate ∧
          ∀ s : Bindings, s.Solves w pattern candidate → ∀ name, w.contains name = true →
            ∃ a b, (unifySequence w pattern candidate).2.get? name = some a ∧
              s.get? name = some b ∧ b.same a = true) := by
  refine ⟨⟨fun hsuccess => ?_, ?_⟩, fun hsuccess => ?_⟩
  · obtain ⟨hsolves, hexact, -⟩ :=
      unifySequence_eq_true hcollect hpattern hblocks hcandidate (Prod.ext hsuccess rfl)
    exact ⟨_, hexact, hsolves⟩
  · rintro ⟨s, hs, hsolves⟩
    obtain ⟨hlength, found, hfound, hmeets⟩ := hsolves.captures hcollect
    have hexact : ∀ capture ∈ found, capture.2.Exact valueOf :=
      all_of_capturesInNodes (fun p _ _ _ => Node.all_of_captures) hfound
        fun c hc => (hcandidate c hc).exact
    obtain ⟨bs, hbind⟩ : ∃ bs, Bindings.bindAll [] found = (true, bs) :=
      Bindings.bindAll_of_meets hs (by simp) hexact (by simp [Bindings.Meets]) hmeets
    rw [unifySequence_eq_iff.mpr ⟨hlength, found, hfound, hbind⟩]
  · obtain ⟨hsolves, -, found, hfound, hget⟩ :=
      unifySequence_eq_true hcollect hpattern hblocks hcandidate (Prod.ext hsuccess rfl)
    refine ⟨hsolves, fun s hs name hname => ?_⟩
    obtain ⟨-, found', hfound', hmeets⟩ := hs.captures hcollect
    cases hfound.symm.trans hfound'
    obtain ⟨role, hrole⟩ := Option.isSome_iff_exists.mp hname
    have hbound := (hsolves.1 name).trans hrole
    obtain ⟨a, ha, -⟩ := Option.map_eq_some_iff.mp hbound
    have hcapture : (name, a) ∈ found := mem_of_lookup_eq_some ((hget name).symm.trans ha)
    obtain ⟨b, hb, hsame⟩ := hmeets _ hcapture
    exact ⟨a, b, ha, hb, hsame⟩

def Node.call (callee : String) (arguments : List Node) : Node :=
  .mk .callExpression {} [(.callee, .node (.identifier callee)), (.arguments, .list arguments),
    (.optional, .flag false)]

def Node.sum (left right : Node) : Node :=
  .mk .binaryExpression {} [(.operator, .text "+"), (.left, .node left), (.right, .node right)]

def Node.number (value : Option Binary64) (raw : String) : Node :=
  .mk .literal {} [(.value, .scalar (.num value raw))]

/-- The pattern `f(a, a, ...b)` in `f(1, 1, x, y)`. -/
theorem unifySequence_inverts_instantiate_call :
    ∃ (pattern candidate : List Node) (w : Wildcards), Wildcards.collect pattern = .ok w ∧
      (unifySequence w pattern candidate).1 = true ∧
      (unifySequence w pattern candidate).2.Solves w pattern candidate := by
  let one := Node.number (Numeral.value? "1") "1"
  let rest : Node := .mk .spreadElement {} [(.argument, .node (.identifier "b"))]
  let w : Wildcards := ⟨[("a", .value), ("b", .rest)]⟩
  let pattern := [Node.call "f" [.identifier "a", .identifier "a", rest]]
  let candidate := [Node.call "f" [one, one, .identifier "x", .identifier "y"]]
  have hcollect : Wildcards.collect pattern = .ok w := by decide
  have hcandidate : ∀ c ∈ candidate, c.WellFormed Numeral.value? := by
    intro c hc
    cases List.mem_singleton.mp hc
    exact ⟨by decide, by decide, by decide +kernel⟩
  have hsuccess : (unifySequence w pattern candidate).1 = true := by decide +kernel
  have hinverts :=
    unifySequence_inverts_instantiate hcollect (by decide) (by decide) hcandidate
  exact ⟨pattern, candidate, w, hcollect, hsuccess, (hinverts.2 hsuccess).1⟩

/-- Only assignments that are compared faithfully count.  The number one with the text `5n`, which
no text gives it, is like `1` by value and like `5n` by text, so it turns `a + a` into `1 + 5n`;
but `1` and `5n` are not like each other. -/
theorem unifySequence_misses_inexact_number :
    ∃ (pattern candidate : List Node) (w : Wildcards) (s : Bindings),
      Wildcards.collect pattern = .ok w ∧
      (∀ p ∈ pattern, p.WellFormed Numeral.value? ∧ p.All fun n => ¬ n.IsEmptyBlock) ∧
      (∀ c ∈ candidate, c.WellFormed Numeral.value?) ∧
      s.Solves w pattern candidate ∧ (unifySequence w pattern candidate).1 = false := by
  let w : Wildcards := ⟨[("a", .value)]⟩
  let s : Bindings := [("a", .node (.number (Numeral.value? "1") "5n"))]
  refine ⟨[.sum (.identifier "a") (.identifier "a")],
    [.sum (.number (Numeral.value? "1") "1") (.number none "5n")], w, s, by decide, ?_, ?_,
    ⟨?_, _, rfl, by decide +kernel⟩, by decide +kernel⟩
  · intro p hp
    cases List.mem_singleton.mp hp
    exact ⟨⟨by decide, by decide, by decide⟩, by decide⟩
  · intro c hc
    cases List.mem_singleton.mp hc
    exact ⟨by decide, by decide, by decide +kernel⟩
  · intro name
    simp only [w, s, Bindings.get?, Wildcards.get?, List.lookup_cons, List.lookup_nil]
    cases name == "a" <;> rfl

end Graft
