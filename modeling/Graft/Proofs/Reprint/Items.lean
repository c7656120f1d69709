import Graft.Proofs.Reprint.Layout
import Graft.Proofs.Reprint.Primary
import Graft.Proofs.SameStructure

/-!
# Reading lists in brackets

Arguments of a call and elements of an array, separated by a comma and a blank.
-/

namespace Graft.Grammar

variable {g : Productions} {lineEnds : Bool} {tail : List Char}

/-- A text that is read as an item of a list. -/
structure ReadsItem (g : Productions) (text : List Char) (n : Node) : Prop where
  fresh : ∀ rest, endsName rest = true → isFresh (text ++ rest) = true
  mark : ∀ rest, endsName rest = true → markOf (text ++ rest) ∉ [",", ")", "]"]
  read : ∀ rest, Stops 0 rest →
    Reads (if markOf (text ++ rest) == "..." then spread g else Operand.node <$> g.expression false)
      (text ++ rest) rest fun found => found.sameStructure n = true

/-- The brackets that close a list. -/
def listClosers : List (Char × String) := [(')', ")"), (']', "]")]

theorem listClosers_facts :
    ∀ entry ∈ listClosers, entry ∈ closers ∧ entry.2 ≠ "," ∧
      entry.2 ∈ [",", ")", "]"] := by
  decide

/-- An item that has been read as a value. -/
def Item.SameAs (n : Node) (item : Item) : Prop :=
  ∃ found, item = .value found ∧ found.sameStructure n = true

theorem skips_items {closing : String} {filled : Bool} (fuel : Nat) :
    Skips (items g closing filled fuel) := by
  cases fuel with
  | zero => exact .unexpected
  | succ fuel => exact .bind .start

/-- One value of a list, and then what `items` does behind it. -/
theorem reads_items_value
    {c : Char} {closing : String}
    (hcloser : (c, closing) ∈ listClosers)
    {text rest : List Char} {n : Node}
    (hitem : ReadsItem g text n) (hrest : Stops 0 rest)
    {fuel : Nat} {P : List Item → Prop}
    (hmore : Reads (items g closing true fuel) rest tail P) :
    Reads (items g closing false (fuel + 1)) (text ++ rest) tail fun found =>
      ∃ first more, found = first :: more ∧ Item.SameAs n first ∧ P more := by
  have hfresh := hitem.fresh rest hrest.ends
  have hmark := hitem.mark rest hrest.ends
  refine (Reads.start (skipped_of_isFresh hfresh)).bind fun cur hcur => ?_
  have hnext : cur.nextMark = markOf (text ++ rest) := by rw [Cursor.nextMark_eq, hcur]
  have hclosing : markOf (text ++ rest) ≠ closing := by
    intro heq
    exact hmark (heq ▸ (listClosers_facts _ hcloser).2.2)
  have hcomma : markOf (text ++ rest) ≠ "," := by
    intro heq
    exact hmark (by simp [heq])
  simp only [hnext, beq_iff_eq, hclosing, hcomma, if_false, Bool.false_eq_true]
  have hthen : ∀ p : Parser Node, Reads p (text ++ rest) rest (fun m => m.sameStructure n = true) →
      Reads (do
        let value ← p
        let more ← items g closing true fuel
        return Item.value value :: more) (text ++ rest) tail fun found =>
          ∃ first more, found = first :: more ∧ Item.SameAs n first ∧ P more := by
    intro p hp
    refine hp.bind fun value hvalue => ?_
    refine hmore.bind fun more hP => ?_
    exact .of_pure ⟨_, more, rfl, ⟨value, rfl, hvalue⟩, hP⟩
  have hread := hitem.read rest hrest
  by_cases hspread : markOf (text ++ rest) = "..."
  · simp only [hspread, BEq.rfl, if_true] at hread ⊢
    exact hthen _ hread
  · simp only [hspread, beq_iff_eq, if_false] at hread ⊢
    exact hthen _ hread

theorem reads_items_comma
    {c : Char} {closing : String}
    (hcloser : (c, closing) ∈ listClosers)
    {text : List Char} {fuel : Nat} {P : List Item → Prop}
    (hmore : Reads (items g closing false fuel) text tail P) :
    Reads (items g closing true (fuel + 1)) (',' :: text) tail P := by
  refine (Reads.start (skipped_of_isFresh rfl)).bind fun cur hcur => ?_
  have hmark : markAt (',' :: text) = some (",", text) := markAt_closer (by decide) text
  have hnext : cur.nextMark = "," := by rw [Cursor.nextMark_eq, hcur, markOf_eq hmark]
  have hclosing : "," ≠ closing := (listClosers_facts _ hcloser).2.1.symm
  simp only [hnext, beq_iff_eq, hclosing, if_false, if_true]
  refine (Reads.mark hmark).bind fun _ _ => ?_
  refine .get fun stop _ => ?_
  refine hmore.bind fun more hP => ?_
  exact .of_pure hP

theorem reads_items_close
    {c : Char} {closing : String}
    (hcloser : (c, closing) ∈ listClosers)
    {filled : Bool} {fuel : Nat} :
    Reads (items g closing filled (fuel + 1)) (c :: tail) tail (· = []) := by
  have hmark := markAt_closer (listClosers_facts _ hcloser).1 tail
  have hfresh := (closer_facts _ (listClosers_facts _ hcloser).1 tail).1
  refine (Reads.start (skipped_of_isFresh hfresh)).bind fun cur hcur => ?_
  have hnext : cur.nextMark = closing := by rw [Cursor.nextMark_eq, hcur, markOf_eq hmark]
  simp only [hnext, BEq.rfl, if_true]
  exact (Reads.mark hmark).bind fun _ _ => .of_pure rfl

theorem reads_items_rest
    {c : Char} {closing : String}
    (hcloser : (c, closing) ∈ listClosers)
    {entries : List (List Char × Node)}
    (hentries : ∀ entry ∈ entries, ReadsItem g entry.1 entry.2)
    {fuel : Nat}
    (hfuel : 2 * entries.length < fuel) :
    Reads (items g closing true fuel)
      ((entries.map Prod.fst).flatMap (fun text => ',' :: ' ' :: text) ++ c :: tail) tail
      (List.Forall₂ Item.SameAs (entries.map Prod.snd)) := by
  induction entries generalizing fuel with
  | nil =>
      obtain ⟨fuel, rfl⟩ : ∃ n, fuel = n + 1 := ⟨fuel - 1, by omega⟩
      refine (reads_items_close hcloser).imp fun found hfound => ?_
      rw [hfound]
      exact .nil
  | cons entry entries ih =>
      rw [List.length_cons] at hfuel
      obtain ⟨fuel, rfl⟩ : ∃ n, fuel = n + 2 := ⟨fuel - 2, by omega⟩
      have hmore := ih (fun e he => hentries e (List.mem_cons_of_mem _ he))
        (by omega : 2 * entries.length < fuel)
      have hstops : Stops 0
          ((entries.map Prod.fst).flatMap (fun text => ',' :: ' ' :: text) ++ c :: tail) := by
        cases entries with
        | nil => exact .closer (listClosers_facts _ hcloser).1 0 tail
        | cons next entries => exact .closer (by decide : (',', ",") ∈ closers) 0 _
      have hvalue := reads_items_value hcloser (hentries entry List.mem_cons_self) hstops hmore
      rw [List.map_cons, List.flatMap_cons, List.cons_append, List.cons_append, List.append_assoc]
      refine reads_items_comma hcloser ?_
      refine .blank (skips_items _) rfl (hvalue.imp fun found hfound => ?_)
      obtain ⟨first, more, rfl, hfirst, hmore⟩ := hfound
      exact .cons hfirst hmore

/-- The items of a list up to its closing bracket. -/
theorem reads_items
    {c : Char} {closing : String}
    (hcloser : (c, closing) ∈ listClosers)
    {entries : List (List Char × Node)}
    (hentries : ∀ entry ∈ entries, ReadsItem g entry.1 entry.2)
    {fuel : Nat}
    (hpositive : 0 < fuel) (hfuel : 2 * entries.length ≤ fuel) :
    Reads (items g closing false fuel) (joined (entries.map Prod.fst) ++ c :: tail) tail
      (List.Forall₂ Item.SameAs (entries.map Prod.snd)) := by
  obtain ⟨fuel, rfl⟩ : ∃ n, fuel = n + 1 := ⟨fuel - 1, by omega⟩
  cases entries with
  | nil =>
      refine (reads_items_close hcloser).imp fun found hfound => ?_
      rw [hfound]
      exact .nil
  | cons entry entries =>
      rw [List.length_cons] at hfuel
      have hmore := @reads_items_rest g tail c closing hcloser entries
        (fun e he => hentries e (List.mem_cons_of_mem _ he)) fuel (by omega)
      have hstops : Stops 0
          ((entries.map Prod.fst).flatMap (fun text => ',' :: ' ' :: text) ++ c :: tail) := by
        cases entries with
        | nil => exact .closer (listClosers_facts _ hcloser).1 0 tail
        | cons next entries => exact .closer (by decide : (',', ",") ∈ closers) 0 _
      have hvalue := reads_items_value hcloser (hentries entry List.mem_cons_self) hstops hmore
      rw [List.map_cons, joined, List.append_assoc]
      refine hvalue.imp fun found hfound => ?_
      obtain ⟨first, more, rfl, hfirst, hmore⟩ := hfound
      exact .cons hfirst hmore

theorem length_joined (texts : List (List Char)) :
    2 * texts.length ≤ (joined texts).length + 2 := by
  cases texts with
  | nil => simp [joined]
  | cons text texts =>
      have hrest : 2 * texts.length ≤ (texts.flatMap fun text => ',' :: ' ' :: text).length := by
        induction texts with
        | nil => simp
        | cons text texts ih =>
            simp only [List.flatMap_cons, List.length_append, List.length_cons]
            omega
      simp only [joined, List.length_append, List.length_cons]
      omega

theorem filterMap_value?
    {ns : List Node} {found : List Item}
    (hfound : List.Forall₂ Item.SameAs ns found) :
    sameSequence (found.filterMap Item.value?) ns = true := by
  induction hfound with
  | nil => rfl
  | cons hfirst _ ih =>
      obtain ⟨m, rfl, hm⟩ := hfirst
      simpa [Item.value?, sameSequence, hm] using ih

theorem map_element
    {ns : List Node} {found : List Item}
    (hfound : List.Forall₂ Item.SameAs ns found) :
    sameSequence (found.map Item.element) ns = true := by
  induction hfound with
  | nil => rfl
  | cons hfirst _ ih =>
      obtain ⟨m, rfl, hm⟩ := hfirst
      simpa [Item.element, sameSequence, hm] using ih

/-- Arguments in parentheses. -/
theorem reads_arguments
    {entries : List (List Char × Node)}
    (hentries : ∀ entry ∈ entries, ReadsItem g entry.1 entry.2) :
    Reads (arguments g) ('(' :: (joined (entries.map Prod.fst) ++ ')' :: tail)) tail
      fun found => sameSequence found (entries.map Prod.snd) = true := by
  refine (Reads.mark (markAt_open _)).bind fun _ _ => ?_
  refine .get fun cur hcur => ?_
  have hfuel : 2 * entries.length ≤ cur.rest.length + 1 := by
    have hlength := length_joined (entries.map Prod.fst)
    rw [List.length_map] at hlength
    rw [hcur, List.length_append, List.length_cons]
    omega
  refine (reads_items (by decide) hentries (by omega) hfuel).bind fun found hfound => ?_
  exact .of_pure (filterMap_value? hfound)

theorem reads_primary_array
    {entries : List (List Char × Node)}
    (hentries : ∀ entry ∈ entries, ReadsItem g entry.1 entry.2) :
    Reads (primary g lineEnds) ('[' :: (joined (entries.map Prod.fst) ++ ']' :: tail)) tail
      fun o => (∃ span found, o.node = .mk .arrayExpression span [(.elements, .list found)] ∧
        sameSequence found (entries.map Prod.snd) = true) ∧ o.form = .literal := by
  refine (Reads.operandStart rfl).bind fun origin horigin => ?_
  have hword : origin.word? = none :=
    Cursor.word?_eq_none horigin (wordAt_of_stop rfl (by decide) (by decide))
  simp only [hword, horigin]
  refine (Reads.start (skipped_of_isFresh rfl)).bind fun origin _ => ?_
  have harray : Reads (array g) ('[' :: (joined (entries.map Prod.fst) ++ ']' :: tail)) tail
      fun n => ∃ span found, n = .mk .arrayExpression span [(.elements, .list found)] ∧
        sameSequence found (entries.map Prod.snd) = true := by
    refine (Reads.start (skipped_of_isFresh rfl)).bind fun origin _ => ?_
    refine (Reads.mark (markAt_bracket _)).bind fun _ _ => ?_
    refine .get fun cur hcur => ?_
    have hfuel : 2 * entries.length ≤ cur.rest.length + 1 := by
      have hlength := length_joined (entries.map Prod.fst)
      rw [List.length_map] at hlength
      rw [hcur, List.length_append, List.length_cons]
      omega
    refine (reads_items (by decide) hentries (by omega) hfuel).bind fun found hfound => ?_
    exact Reads.node fun span => ⟨span, _, rfl, map_element hfound⟩
  have hliteral : Reads (do
      return (⟨← array g, origin, .literal⟩ : Operand))
      ('[' :: (joined (entries.map Prod.fst) ++ ']' :: tail)) tail fun o =>
        (∃ span found, o.node = .mk .arrayExpression span [(.elements, .list found)] ∧
          sameSequence found (entries.map Prod.snd) = true) ∧ o.form = .literal :=
    harray.bind fun n hn => .of_pure ⟨hn, rfl⟩
  refine (Reads.eitherReading hliteral).bind fun o ho => ?_
  refine .get fun cur _ => ?_
  simp only [ho.2, decide_true, Bool.true_or, if_true]
  exact .of_pure ho

end Graft.Grammar
