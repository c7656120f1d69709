import Graft.Proofs.Reprint.Items

/-!
# Reading chains of members and calls

An operand is followed by any number of members, calls and updates.  A chain is read from its first
part on, and every further part is one round of the loop that reads what follows an operand.
-/

namespace Graft.Grammar

open Text

variable {g : Productions} {calls lineEnds : Bool} {tail : List Char}

/-! ## One suffix -/

theorem markAt_dot {c : Char} (hc : c ≠ '.') (rest : List Char) :
    markAt ('.' :: c :: rest) = some (".", c :: rest) := by
  have hfound : punctuator? ('.' :: c :: rest) = some "." := by
    simp [punctuator?, punctuators, startsWith, List.isPrefixOf, hc.symm]
  rw [markAt_of_isFresh rfl, hfound]
  rfl

theorem markAt_member
    {name : String}
    (hname : isNameText name.toList = true)
    (rest : List Char) :
    markAt ('.' :: (name.toList ++ rest)) = some (".", name.toList ++ rest) := by
  cases hchars : name.toList with
  | nil => simp [hchars, isNameText] at hname
  | cons c chars =>
      rw [hchars, isNameText, Bool.and_eq_true, Bool.and_eq_true] at hname
      exact markAt_dot (ne_of_isNameChar hname.1.2 (by decide)) _

theorem endsHere_eq_false
    {cur : Cursor} {c : Char} {rest : List Char}
    (hcur : cur.rest = c :: rest) (hc : c ∈ ['.', '+', '-']) :
    endsHere lineEnds cur = false := by
  have hend : cur.automaticEnd? true = none := by
    simp only [List.mem_cons, List.not_mem_nil, or_false] at hc
    rcases hc with rfl | rfl | rfl
    all_goals exact Cursor.automaticEnd?_eq_none hcur rfl (by decide) (by decide) rfl rfl true
  simp [endsHere, hend]

theorem reads_suffix_member
    {operand : Operand} {name : String}
    (hname : isNameText name.toList = true) (htail : endsName tail = true) :
    Reads (suffix? g calls lineEnds operand) ('.' :: (name.toList ++ tail)) tail fun found =>
      ∃ o span span', found = some o ∧ o.form = .member ∧
        o.node = .mk .memberExpression span
          [(.object, .node operand.node), (.property, .node (.identifier name span')),
            (.computed, .flag false), (.optional, .flag false)] := by
  have hmark := markAt_member hname tail
  refine .get fun cur hcur => ?_
  have hnext : cur.nextMark = "." := by rw [Cursor.nextMark_eq, hcur, markOf_eq hmark]
  have hends : endsHere lineEnds cur = false := endsHere_eq_false hcur (by decide)
  simp only [hnext, BEq.rfl, if_true, hends, Bool.false_eq_true, if_false]
  refine (Reads.mark hmark).bind fun _ _ => ?_
  have hproperty : Reads propertyName (name.toList ++ tail) tail
      fun n => ∃ span, n = .identifier name span := by
    refine (Reads.start (skipped_name hname tail)).bind fun stop hstop => ?_
    have hprivate : stop.rest.head? ≠ some '#' := by
      rw [hstop]
      cases hchars : name.toList with
      | nil => simp [hchars, isNameText] at hname
      | cons c rest =>
          rw [hchars, isNameText, Bool.and_eq_true, Bool.and_eq_true] at hname
          have hc : c ≠ '#' := ne_of_isNameChar hname.1.2 (by decide)
          simpa using hc
    simp only [beq_iff_eq, hprivate, if_false]
    exact reads_anyName hname htail
  refine hproperty.bind fun property hproperty => ?_
  obtain ⟨span', rfl⟩ := hproperty
  refine .map ?_
  refine Reads.newNode.bind fun n hn => ?_
  obtain ⟨span, rfl⟩ := hn
  exact .of_pure ⟨_, span, span', rfl, rfl, rfl⟩

theorem reads_suffix_element
    {operand : Operand} {inner : List Char} {P : Node → Prop}
    (hinner : Reads (g.expressions false) (inner ++ ']' :: tail) (']' :: tail) P) :
    Reads (suffix? g calls lineEnds operand) ('[' :: (inner ++ ']' :: tail)) tail fun found =>
      ∃ o span index, found = some o ∧ o.form = .member ∧ P index ∧
        o.node = .mk .memberExpression span
          [(.object, .node operand.node), (.property, .node index),
            (.computed, .flag true), (.optional, .flag false)] := by
  refine .get fun cur hcur => ?_
  have hnext : cur.nextMark = "[" := by
    rw [Cursor.nextMark_eq, hcur, markOf_eq (markAt_bracket _)]
  simp only [hnext]
  refine .map ?_
  refine (Reads.mark (markAt_bracket _)).bind fun _ _ => ?_
  refine hinner.bind fun index hindex => ?_
  refine (Reads.mark (markAt_closer (by decide) tail)).bind fun _ _ => ?_
  refine Reads.newNode.bind fun n hn => ?_
  obtain ⟨span, rfl⟩ := hn
  exact .of_pure ⟨_, span, index, rfl, rfl, hindex, rfl⟩

theorem reads_suffix_call
    {operand : Operand} {entries : List (List Char × Node)}
    (hentries : ∀ entry ∈ entries, ReadsItem g entry.1 entry.2) :
    Reads (suffix? g true lineEnds operand)
      ('(' :: (joined (entries.map Prod.fst) ++ ')' :: tail)) tail fun found =>
        ∃ o span args, found = some o ∧ o.form = .other ∧
          sameSequence args (entries.map Prod.snd) = true ∧
          o.node = .mk .callExpression span
            [(.callee, .node operand.node), (.arguments, .list args),
              (.optional, .flag false)] := by
  refine .get fun cur hcur => ?_
  have hnext : cur.nextMark = "(" := by
    rw [Cursor.nextMark_eq, hcur, markOf_eq (markAt_open _)]
  simp only [hnext]
  refine (reads_arguments hentries).bind fun args hargs => ?_
  refine .map ?_
  refine Reads.newNode.bind fun n hn => ?_
  obtain ⟨span, rfl⟩ := hn
  exact .of_pure ⟨_, span, args, rfl, rfl, hargs, rfl⟩

theorem markAt_update
    {operator : String}
    (hoperator : operator ∈ ["++", "--"])
    (rest : List Char) :
    markAt (operator.toList ++ rest) = some (operator, rest) := by
  simp only [List.mem_cons, List.not_mem_nil, or_false] at hoperator
  rcases hoperator with rfl | rfl
  · have hskip : skipped ('+' :: '+' :: rest) = '+' :: '+' :: rest := skipped_of_ne rfl (by decide)
    have hfound : punctuator? ('+' :: '+' :: rest) = some "++" := rfl
    simp [markAt, hskip, hfound]
    rfl
  · have hskip : skipped ('-' :: '-' :: rest) = '-' :: '-' :: rest := skipped_of_ne rfl (by decide)
    have hfound : punctuator? ('-' :: '-' :: rest) = some "--" := rfl
    simp [markAt, hskip, hfound]
    rfl

theorem reads_suffix_update
    {operand : Operand} {operator : String}
    (hoperator : operator ∈ ["++", "--"]) :
    Reads (suffix? g true lineEnds operand) (operator.toList ++ tail) tail fun found =>
      ∃ o span, found = some o ∧ o.form = .other ∧
        o.node = .mk .updateExpression span
          [(.operator, .text operator), (.argument, .node operand.node),
            (.prefixed, .flag false)] := by
  have hmark := markAt_update hoperator tail
  refine .get fun cur hcur => ?_
  have hnext : cur.nextMark = operator := by rw [Cursor.nextMark_eq, hcur, markOf_eq hmark]
  simp only [List.mem_cons, List.not_mem_nil, or_false] at hoperator
  have hends : endsHere lineEnds cur = false := by
    rcases hoperator with rfl | rfl
    · exact endsHere_eq_false hcur (by decide)
    · exact endsHere_eq_false hcur (by decide)
  rw [hnext]
  rcases hoperator with rfl | rfl <;> simp only [hends]
  all_goals
    refine (Reads.mark hmark).bind fun _ _ => ?_
    refine Reads.newNode.bind fun n hn => ?_
    obtain ⟨span, rfl⟩ := hn
    exact .of_pure ⟨_, span, rfl, rfl, rfl⟩

/-- Nothing extends the operand in front of the text. -/
def suffixStops (calls : Bool) (tail : List Char) : Prop :=
  markOf tail ∉ [".", "?.", "[", "\x60"] ∧ (calls = true → markOf tail ∉ ["(", "++", "--"])

theorem reads_suffix_none {operand : Operand} (htail : suffixStops calls tail) :
    Reads (suffix? g calls lineEnds operand) tail tail (· = none) := by
  obtain ⟨hmember, hcall⟩ := htail
  refine .get fun cur hcur => ?_
  have hnext : cur.nextMark = markOf tail := by rw [Cursor.nextMark_eq, hcur]
  simp only [List.mem_cons, List.not_mem_nil, or_false, not_or] at hmember hcall
  simp only [hnext, beq_iff_eq, hmember, if_false]
  cases calls with
  | false =>
      simp only [Bool.not_false, if_true]
      exact .of_pure rfl
  | true =>
      simp only [Bool.not_true, Bool.false_eq_true, if_false, hcall, Bool.or_eq_true, beq_iff_eq,
        or_self, Bool.and_eq_true, false_and]
      exact .of_pure rfl

theorem reads_suffixed_none {operand : Operand} (htail : suffixStops calls tail) :
    Reads (suffixed g calls lineEnds operand) tail tail (· = operand) := by
  refine .get fun cur _ => ?_
  refine (reads_suffix_none htail).bind fun found hnone => ?_
  rw [hnone]
  exact .of_pure rfl

/-! ## Chains -/

/-- A chain is complete in front of the text, or goes on.  A dot would extend an integer. -/
structure ChainFollows (integer : Bool) (tail : List Char) : Prop extends Follows tail where
  noDot : integer = true → tail.head? ≠ some '.'

/-- An operand has the structure of `n`.  It has the form of a target only if `n` is one, and then
it has that form or stands in parentheses. -/
structure Operand.SameAs (n : Node) (o : Operand) : Prop where
  same : o.node.sameStructure n = true
  target : n.kind = .identifier ∨ n.kind = .memberExpression →
    o.form = .name ∨ o.form = .member ∨ o.form = .group
  kind : o.form = .name ∨ o.form = .member → n.kind = .identifier ∨ n.kind = .memberExpression

theorem Operand.SameAs.of_form
    {n : Node} {o : Operand} {form : Form}
    (hsame : o.node.sameStructure n = true)
    (hform : o.form = form)
    (hother : form ≠ .name ∧ form ≠ .member)
    (hkind : ¬(n.kind = .identifier ∨ n.kind = .memberExpression)) :
    o.SameAs n := by
  refine ⟨hsame, fun htarget => absurd htarget hkind, fun hfound => ?_⟩
  rw [hform] at hfound
  exact (hfound.elim hother.1 hother.2).elim

/-- The text starts a chain with the tree `n`: the loop over what follows an operand gets to its
end with an operand like `n`, and has rounds left for what stands behind. -/
def Chains (g : Productions) (calls integer : Bool) (text : List Char) (n : Node) : Prop :=
  ∀ (lineEnds : Bool) (tail : List Char), ChainFollows integer tail →
    GoesOn (primary g lineEnds >>= suffixed g calls lineEnds) (text ++ tail) tail
      (fun state : Nat × Operand => suffixes g calls lineEnds state.1 state.2)
      (fun state => tail.length < state.1 ∧ state.2.SameAs n)

theorem Chains.of_primary
    {integer : Bool} {text : List Char} {n : Node}
    (hread : ∀ lineEnds tail, ChainFollows integer tail →
      Reads (primary g lineEnds) (text ++ tail) tail (Operand.SameAs n)) :
    Chains g calls integer text n := by
  intro lineEnds tail htail
  refine (hread lineEnds tail htail).bind fun o ho => ?_
  refine .get fun cur hcur => ?_
  exact fun stop hstop => ⟨(cur.rest.length + 1, o), stop, rfl, hstop, by simp [hcur], ho⟩

/-- One more round of the loop. -/
theorem Chains.suffix
    {integer : Bool} {text part : List Char} {n whole : Node}
    (hchain : Chains g calls integer text n)
    (hpart : part ≠ [])
    (hfollows : ∀ tail, ChainFollows integer (part ++ tail))
    (hread : ∀ lineEnds tail o, Follows tail → Operand.SameAs n o →
      Reads (suffix? g calls lineEnds o) (part ++ tail) tail fun found =>
        ∃ longer, found = some longer ∧ longer.SameAs whole) :
    Chains g calls false (text ++ part) whole := by
  intro lineEnds tail htail
  rw [List.append_assoc]
  refine (hchain lineEnds (part ++ tail) (hfollows tail)).trans fun state hstate => ?_
  obtain ⟨fuel, o⟩ := state
  obtain ⟨hfuel, ho⟩ := hstate
  have hpositive : 0 < part.length := List.length_pos_iff.mpr hpart
  rw [List.length_append] at hfuel
  obtain ⟨fuel, rfl⟩ : ∃ n, fuel = n + 1 := ⟨fuel - 1, by omega⟩
  refine (hread lineEnds tail o htail.toFollows ho).bind fun found hfound => ?_
  obtain ⟨longer, rfl, hlonger⟩ := hfound
  exact fun stop hstop => ⟨(fuel, longer), stop, rfl, hstop, by simp only; omega, hlonger⟩

/-- A chain that nothing extends. -/
theorem Chains.reads
    {integer : Bool} {text : List Char} {n : Node}
    (hchain : Chains g calls integer text n)
    (htail : ChainFollows integer tail)
    (hstops : suffixStops calls tail) :
    Reads (primary g lineEnds >>= suffixed g calls lineEnds) (text ++ tail) tail
      (Operand.SameAs n) := by
  refine (hchain lineEnds tail htail).trans fun state hstate => ?_
  obtain ⟨fuel, o⟩ := state
  obtain ⟨hfuel, ho⟩ := hstate
  obtain ⟨fuel, rfl⟩ : ∃ n, fuel = n + 1 := ⟨fuel - 1, by simp only at hfuel; omega⟩
  refine (reads_suffix_none hstops).bind fun found hfound => ?_
  rw [hfound]
  exact .of_pure ho

end Graft.Grammar
