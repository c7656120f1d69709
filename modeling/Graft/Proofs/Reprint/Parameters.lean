import Graft.Proofs.Reprint.Patterns

/-!
# Conditions that read like parameters

What stands in parentheses behind `if` or `while` is an expression, but behind the name of a method
it would be a list of parameters.  Here it is shown which plain expressions read as both: names,
members that start with no array, arrays of such items, and these with default values or with dots
in front.
-/

namespace Graft

open Grammar

/-! ## Expressions that read like parameters -/

/-- The text of the operand starts with an array. -/
inductive Node.OpensBracket : Node → Prop
  | array {span : Span} {ns : List Node} :
      OpensBracket (.mk .arrayExpression span [(.elements, .list ns)])
  | member {span : Span} {object property : Node} {computed optional : Slot}
      (hobject : OpensBracket object) :
      OpensBracket (.mk .memberExpression span [(.object, .node object),
        (.property, .node property), (.computed, computed), (.optional, optional)])
  | call {span : Span} {callee : Node} {args : List Node} {optional : Slot}
      (hcallee : OpensBracket callee) :
      OpensBracket (.mk .callExpression span [(.callee, .node callee), (.arguments, .list args),
        (.optional, optional)])

mutual

/-- Names, members and arrays that read as patterns too.  A member of an array does not: the array
alone is taken for the pattern. -/
inductive Node.PatternLike : Node → Prop
  | name {name : String} {span : Span} : PatternLike (.identifier name span)
  | member {span : Span} {object property : Node} {computed optional : Slot}
      (hobject : ¬ object.OpensBracket) :
      PatternLike (.mk .memberExpression span [(.object, .node object),
        (.property, .node property), (.computed, computed), (.optional, optional)])
  | array {span : Span} {ns : List Node} (hns : ∀ n ∈ ns, ParameterLike n) :
      PatternLike (.mk .arrayExpression span [(.elements, .list ns)])

/-- A pattern, perhaps with a default value or with dots in front. -/
inductive Node.ParameterLike : Node → Prop
  | pattern {n : Node} (hn : PatternLike n) : ParameterLike n
  | withDefault {span : Span} {left right : Node} (hleft : PatternLike left) :
      ParameterLike (.mk .assignmentExpression span [(.operator, .text "="),
        (.left, .node left), (.right, .node right)])
  | rest {span : Span} {n : Node} (hn : ParameterLike n) :
      ParameterLike (.mk .spreadElement span [(.argument, .node n)])

end

/-- What stands in parentheses reads like a list of parameters. -/
inductive Node.ParametersLike : Node → Prop
  | single {n : Node} (hn : n.ParameterLike) : ParametersLike n
  | several {span : Span} {ns : List Node} (hns : ∀ n ∈ ns, n.ParameterLike) :
      ParametersLike (.mk .sequenceExpression span [(.expressions, .list ns)])

variable {style : Style} {level d : Nat} {n : Node} {tail : List Char}

/-! ## Operands that cannot be targets -/

namespace Grammar

theorem skips_pattern (d : Nat) : Skips (depth d).pattern := by
  cases d with
  | zero => exact .unexpected
  | succ d => exact .bind .start

variable {g : Productions} {lineEnds : Bool}

/-- A punctuator starts with the character that it is read from. -/
theorem head?_of_markOf
    {c : Char} {rest : List Char} {mark : String}
    (hfresh : isFresh (c :: rest) = true) (hmark : markOf (c :: rest) = mark) (hne : mark ≠ "") :
    mark.toList.head? = some c := by
  rw [markOf, markAt_of_isFresh hfresh] at hmark
  cases hfound : punctuator? (c :: rest) with
  | none =>
      rw [hfound] at hmark
      exact absurd hmark.symm hne
  | some found =>
      rw [hfound] at hmark
      obtain rfl : found = mark := hmark
      unfold punctuator? at hfound
      split at hfound
      next heq =>
        obtain ⟨rfl, -⟩ := List.cons.inj heq
        split at hfound
        all_goals
          cases hfound
          rfl
      next =>
        have hstarts : startsWith (c :: rest) found = true := List.find?_some hfound
        have hprefixed := List.isPrefixOf_iff_prefix.mp hstarts
        cases hchars : found.toList with
        | nil => exact absurd (String.toList_eq_nil_iff.mp hchars) hne
        | cons d more =>
            rw [hchars, List.cons_prefix_cons] at hprefixed
            rw [hprefixed.1]
            rfl

theorem fails_primary_sign
    {c : Char} {rest : List Char}
    (hc : c ∈ ['!', '~', '+', '-']) (hfresh : isFresh (c :: rest) = true) :
    Fails (primary g lineEnds) (c :: rest) := by
  refine .after (Reads.operandStart hfresh) fun origin horigin => ?_
  have hword : origin.word? = none := by
    refine Cursor.word?_eq_none horigin (wordAt_of_stop hfresh ?_ ?_)
    all_goals
      simp only [List.mem_cons, List.not_mem_nil, or_false] at hc
      rcases hc with rfl | rfl | rfl | rfl <;> decide
  have hlength : numberLength? (c :: rest) = none := by
    simp only [List.mem_cons, List.not_mem_nil, or_false] at hc
    rcases hc with rfl | rfl | rfl | rfl <;> rfl
  have hnumber : Fails numberLiteral (c :: rest) := by
    refine .after (Reads.start (skipped_of_isFresh hfresh)) fun origin _ => .bind ?_
    refine Ends.fails (.get fun cur hcur => ?_)
    simp only [hcur, hlength]
    exact .of_unexpected
  simp only [List.mem_cons, List.not_mem_nil, or_false] at hc
  rcases hc with rfl | rfl | rfl | rfl
  all_goals
    simp only [hword, horigin]
    exact hnumber.bind

end Grammar

/-! ## One kind of operand after the other -/

/-- What may stand behind a text that is tried as a pattern: what ends an operand, or anything if
the text starts with an array. -/
def Grammar.PatternEnd (text rest : List Char) : Prop :=
  endsName rest = true ∧
    (markOf (text ++ rest) = "[" ∨ ChainFollows true rest ∧ suffixStops true rest)

/-- What comes of reading the text of an operand as a pattern. -/
structure Node.PatternVerdict (style : Style) (n : Node) : Prop where
  opens : Strength.call ≤ Strength.of n → ∀ level rest,
    markOf (n.text style level ++ rest) = "[" ↔ n.OpensBracket
  decides : n.kind ≠ .assignmentExpression → n.kind ≠ .sequenceExpression →
    ∀ level d rest, 2 * (n.text style level).length ≤ d → PatternEnd (n.text style level) rest →
      Decides Missed n.PatternLike (assignable (depth d)) (n.text style level ++ rest) rest

/-- What comes of reading the text of an item of a list as an element of a pattern, perhaps with
dots in front. -/
def Node.ItemVerdict (style : Style) (lead : List Char) (n : Node) : Prop :=
  ∀ level d, 2 * (n.operandText style level Strength.assignment).length < d →
    ∀ {α : Type} (finish : Node → Option Operand → Parser α), Finishes finish →
      DecidesItem n.ParameterLike (defaulted (depth d) finish)
        (lead ++ n.operandText style level Strength.assignment)

theorem Node.operandText_cases (style : Style) (level least : Nat) (n : Node) :
    (∃ rest, n.operandText style level least = '(' :: rest) ∨
      n.operandText style level least = n.text style level ∧ least ≤ Strength.of n := by
  rw [Node.operandText_eq]
  split
  · exact .inl ⟨_, rfl⟩
  · exact .inr ⟨rfl, by omega⟩

theorem Node.objectText_cases (style : Style) (level : Nat) (n : Node) :
    (∃ rest, n.objectText style level = '(' :: rest) ∨
      n.objectText style level = n.text style level ∧ Strength.call ≤ Strength.of n := by
  rw [Node.objectText]
  split
  · exact .inl ⟨_, rfl⟩
  · exact n.operandText_cases style level Strength.call

theorem Node.kinds_ne_of_strength (hstrength : Strength.assignment < Strength.of n) :
    n.kind ≠ .assignmentExpression ∧ n.kind ≠ .sequenceExpression := by
  refine ⟨fun hkind => ?_, Node.kind_ne_of_strength (Nat.zero_lt_of_lt hstrength)⟩
  rw [Strength.of, hkind] at hstrength
  exact Nat.lt_irrefl _ hstrength

theorem Node.OpensBracket.strength (hn : n.OpensBracket) : Strength.call ≤ Strength.of n := by
  cases hn with
  | array => exact (by decide : Strength.call ≤ Strength.primary)
  | member => exact (by decide : Strength.call ≤ Strength.member)
  | call => exact Nat.le_refl _

theorem Node.OpensBracket.operandText_call
    (hn : n.OpensBracket)
    (style : Style) (level : Nat) :
    n.operandText style level Strength.call = n.text style level := by
  rw [Node.operandText_eq, if_neg (Nat.not_lt.mpr hn.strength)]

theorem Node.OpensBracket.objectText
    (hn : n.OpensBracket)
    (style : Style) (level : Nat) :
    n.objectText style level = n.text style level := by
  have hinteger : Parts.isBareInteger n = false := by cases hn <;> rfl
  rw [Node.objectText, hinteger, if_neg Bool.false_ne_true, hn.operandText_call]

/-- The text of an operand shows no brace. -/
theorem Node.Rereads.markOf_notMem
    {rest : List Char}
    (hn : n.Rereads style)
    (hrest : endsName rest = true)
    (hbracket : markOf (n.text style level ++ rest) ≠ "[") :
    markOf (n.text style level ++ rest) ∉ ["[", "\x7b"] := by
  have hbrace : markOf (n.text style level ++ rest) ≠ "\x7b" :=
    (hn.leading level).markOf_ne hrest (by decide)
  simp [hbracket, hbrace]

theorem Node.Rereads.fails_target
    {rest : List Char}
    (hn : n.Rereads style)
    (hstrength : Strength.postfixed ≤ Strength.of n)
    (hkind : ¬(n.kind = .identifier ∨ n.kind = .memberExpression))
    (hd : 2 * (n.text style level).length ≤ d)
    (hrest : ChainFollows true rest)
    (hstops : suffixStops true rest) :
    Fails (target (depth d)) (n.text style level ++ rest) :=
  (hn.chains hstrength level d true hd (.inl rfl)).fails_target hkind
    ⟨hrest.toFollows, fun _ => hrest.noDot rfl⟩ hstops

theorem Node.Rereads.ends_assignable_group
    {Q : List Char → Prop} {rest : List Char}
    (hn : n.Rereads style)
    (hd : 2 * ('(' :: (n.text style level ++ [')'])).length ≤ d)
    (hrest : Follows rest)
    (hstops : suffixStops true rest) :
    Ends (assignable (depth d)) ('(' :: (n.text style level ++ [')']) ++ rest) Q := by
  simp only [List.length_cons, List.length_append, List.length_nil] at hd
  refine .of_goesOn (goesOn_assignable_target ?_) fun _ _ =>
    .of_fails (hn.fails_target_group (by omega) hrest hstops)
  rw [List.cons_append, markOf_eq (markAt_open _)]
  decide

namespace Node.PatternVerdict

theorem of_weak
    (hstrength : Strength.of n < Strength.postfixed)
    (hpattern : ¬ n.PatternLike)
    (hends : n.kind ≠ .assignmentExpression → n.kind ≠ .sequenceExpression →
      ∀ level d rest, 2 * (n.text style level).length ≤ d → endsName rest = true →
        Ends (assignable (depth d)) (n.text style level ++ rest) Missed) :
    n.PatternVerdict style where
  opens hof := by
    have hcall : Strength.postfixed ≤ Strength.call := by decide
    omega
  decides hassignment hsequence level d rest hd hrest :=
    .of_ends hpattern (hends hassignment hsequence level d rest hd hrest.1)

/-- What the text is tried as depends on whether it starts with an array. -/
theorem of_strong
    (hn : n.Rereads style)
    (hopens : Strength.call ≤ Strength.of n → ∀ level rest,
      markOf (n.text style level ++ rest) = "[" ↔ n.OpensBracket)
    (hbracket : ∀ level d rest, 2 * (n.text style level).length ≤ d → endsName rest = true →
      markOf (n.text style level ++ rest) = "[" →
        Decides Missed n.PatternLike (assignable (depth d)) (n.text style level ++ rest) rest)
    (htarget : ∀ level d rest, 2 * (n.text style level).length ≤ d →
      markOf (n.text style level ++ rest) ≠ "[" → ChainFollows true rest → suffixStops true rest →
        Decides Missed n.PatternLike (target (depth d)) (n.text style level ++ rest) rest) :
    n.PatternVerdict style where
  opens := hopens
  decides _ _ level d rest hd hrest := by
    by_cases hmark : markOf (n.text style level ++ rest) = "["
    · exact hbracket level d rest hd hrest.1 hmark
    · obtain ⟨hfollows, hstops⟩ := hrest.2.resolve_left hmark
      exact .of_goesOn (goesOn_assignable_target (hn.markOf_notMem hrest.1 hmark)) fun _ _ =>
        htarget level d rest hd hmark hfollows hstops

/-- A text that starts with no punctuator. -/
theorem of_word
    (hn : n.Rereads style)
    (hmark : ∀ level rest, markOf (n.text style level ++ rest) = "")
    (hopens : ¬ n.OpensBracket)
    (htarget : ∀ level d rest, 2 * (n.text style level).length ≤ d → ChainFollows true rest →
      suffixStops true rest →
        Decides Missed n.PatternLike (target (depth d)) (n.text style level ++ rest) rest) :
    n.PatternVerdict style := by
  have hne : ∀ level rest, markOf (n.text style level ++ rest) ≠ "[" := by
    intro level rest
    rw [hmark]
    decide
  exact .of_strong hn (fun _ level rest => iff_of_false (hne level rest) hopens)
    (fun level _ rest _ _ hbracket => absurd hbracket (hne level rest))
    fun level d rest hd _ => htarget level d rest hd

theorem of_leaf
    (hn : n.Rereads style)
    (hstrength : Strength.call ≤ Strength.of n)
    (hmark : ∀ level rest, markOf (n.text style level ++ rest) = "")
    (hkind : ¬(n.kind = .identifier ∨ n.kind = .memberExpression))
    (hopens : ¬ n.OpensBracket)
    (hpattern : ¬ n.PatternLike) :
    n.PatternVerdict style := by
  have hpostfixed : Strength.postfixed ≤ Strength.of n :=
    Nat.le_trans (by decide : Strength.postfixed ≤ Strength.call) hstrength
  exact .of_word hn hmark hopens fun level d rest hd hrest hstops =>
    .of_ends hpattern (.of_fails (hn.fails_target hpostfixed hkind hd hrest hstops))

theorem of_name {name : String} {span : Span} (hname : isVariable name = true) :
    (Node.identifier name span).PatternVerdict style := by
  refine .of_word ((Node.Plain.variableName hname).rereadsAs style) (fun level rest => ?_) nofun
    fun level d rest _ hrest hstops => ?_
  · rw [Node.text_identifier, markOf, markAt_of_isNameText (isNameText_of_isVariable hname)]
    rfl
  · rw [Node.text_identifier]
    exact .of_reads .name (reads_target_variable hname hrest.toFollows hstops)

theorem opens_longer
    (hverdict : n.PatternVerdict style)
    {place part : List Char}
    (hplace : (∃ rest, place = '(' :: rest) ∨
      place = n.text style level ∧ Strength.call ≤ Strength.of n)
    (hopens : n.OpensBracket → place = n.text style level ∧ Strength.call ≤ Strength.of n) :
    markOf (place ++ part) = "[" ↔ n.OpensBracket := by
  constructor
  · intro hmark
    rcases hplace with ⟨rest, rfl⟩ | ⟨rfl, hstrength⟩
    · rw [List.cons_append, markOf_eq (markAt_open _)] at hmark
      exact absurd hmark (by decide)
    · exact (hverdict.opens hstrength level part).mp hmark
  · intro hopen
    obtain ⟨rfl, hstrength⟩ := hopens hopen
    exact (hverdict.opens hstrength level part).mpr hopen

/-- An operand that something extends.  If it starts with an array, the array alone is taken for
the pattern. -/
theorem of_longer
    {whole : Node} {place : Nat → List Char}
    (part : Nat → List Char)
    (hwhole : whole.Rereads style)
    (hverdict : n.PatternVerdict style)
    (htext : ∀ level, whole.text style level = place level ++ part level)
    (hplace : ∀ level, (∃ rest, place level = '(' :: rest) ∨
      place level = n.text style level ∧ Strength.postfixed ≤ Strength.of n)
    (hpart : ∀ level rest, Missed (part level ++ rest) ∧ endsName (part level ++ rest) = true)
    (hopens : Strength.call ≤ Strength.of whole → ∀ level rest,
      markOf (whole.text style level ++ rest) = "[" ↔ whole.OpensBracket)
    (hlike : ∀ level rest, markOf (whole.text style level ++ rest) = "[" → ¬ whole.PatternLike)
    (htarget : ∀ level d rest, 2 * (whole.text style level).length ≤ d →
      markOf (whole.text style level ++ rest) ≠ "[" → ChainFollows true rest →
        suffixStops true rest → Decides Missed whole.PatternLike (target (depth d))
          (whole.text style level ++ rest) rest) :
    whole.PatternVerdict style := by
  refine .of_strong hwhole hopens (fun level d rest hd _ hmark => ?_) htarget
  refine .of_ends (hlike level rest hmark) ?_
  rw [htext, List.length_append] at hd
  rw [htext, List.append_assoc] at hmark ⊢
  rcases hplace level with ⟨more, hgroup⟩ | ⟨hsame, hstrength⟩
  · rw [hgroup, List.cons_append, markOf_eq (markAt_open _)] at hmark
    exact absurd hmark (by decide)
  · rw [hsame] at hd hmark ⊢
    have hkinds := Node.kinds_ne_of_strength (Nat.lt_of_lt_of_le (by decide) hstrength)
    exact (hverdict.decides hkinds.1 hkinds.2 level d _ (by omega)
      ⟨(hpart level rest).2, .inl hmark⟩).ends_of_output fun _ => (hpart level rest).1

theorem of_array
    {span : Span} {ns : List Node}
    (hns : ∀ n ∈ ns, n.Plain .argument) (hverdicts : ∀ n ∈ ns, n.ItemVerdict style []) :
    (Node.mk .arrayExpression span [(.elements, .list ns)]).PatternVerdict style := by
  have hitems : ∀ n ∈ ns, n.RereadsItem style := fun n hn => (hns n hn).rereadsAs style
  have htext : ∀ level, (Node.mk .arrayExpression span [(.elements, .list ns)]).text style level =
      '[' :: (joined (itemTexts style level ns) ++ [']']) :=
    fun level => Node.text_array fun n hn => (hitems n hn).filled
  have hmark : ∀ level rest, markOf ((Node.mk .arrayExpression span
      [(.elements, .list ns)]).text style level ++ rest) = "[" := by
    intro level rest
    rw [htext, List.cons_append]
    exact markOf_eq (markAt_bracket _)
  refine .of_strong ((Node.Plain.array hns).rereadsAs style)
    (fun _ level rest => iff_of_true (hmark level rest) .array) (fun level d rest hd _ _ => ?_)
    fun level d rest _ hne => absurd (hmark level rest) hne
  have hlike : (Node.mk .arrayExpression span [(.elements, .list ns)]).PatternLike ↔
      ∀ n ∈ ns, n.ParameterLike := by
    refine ⟨fun hlike => ?_, .array⟩
    cases hlike with
    | array hlike => exact hlike
  simp only [htext, List.length_cons, List.length_append, List.length_nil] at hd
  rw [htext, List.cons_append, List.append_assoc, hlike]
  refine .of_goesOn goesOn_assignable_array fun _ _ => (decides_arrayPattern (fun n hn => ?_)
    (skips_pattern d) fun n hn => ?_).weaken fun _ => False.elim
  · exact ((hitems n hn).item level _ (Nat.lt_succ_self _)).mark
  · have hle := length_le_joined
      (List.mem_map_of_mem (f := Node.operandText style level Strength.assignment) hn)
    rw [itemTexts] at hd
    exact hverdicts n hn level d (by omega) _ fun _ _ _ => .of_pure trivial

end Node.PatternVerdict

/-- A member: its object, a part in brackets or behind a dot, and the form that it is read with. -/
theorem Node.PatternVerdict.of_member
    {whole object : Node}
    (part : Nat → List Char)
    (hmember : ∃ span property computed optional, whole = .mk .memberExpression span
      [(.object, .node object), (.property, .node property), (.computed, computed),
        (.optional, optional)])
    (hwhole : whole.Rereads style)
    (hobject : object.Rereads style)
    (hverdict : object.PatternVerdict style)
    (htext : ∀ level, whole.text style level = object.objectText style level ++ part level)
    (hne : ∀ level, part level ≠ [])
    (hpart : ∀ level rest, ChainFollows false (part level ++ rest) ∧ Missed (part level ++ rest))
    (hsuffix : ∀ level d rest o, 2 * (part level).length ≤ d → Follows rest →
      Reads (suffix? (depth d) true false o) (part level ++ rest) rest fun found =>
        ∃ longer, found = some longer ∧ longer.form = .member) :
    whole.PatternVerdict style := by
  have hopens : whole.OpensBracket ↔ object.OpensBracket := by
    obtain ⟨span, property, computed, optional, rfl⟩ := hmember
    refine ⟨fun hopen => ?_, .member⟩
    cases hopen with
    | member hopen => exact hopen
  have hlike : whole.PatternLike ↔ ¬ object.OpensBracket := by
    obtain ⟨span, property, computed, optional, rfl⟩ := hmember
    refine ⟨fun hlike => ?_, .member⟩
    cases hlike with
    | member hobject => exact hobject
  have hmark : ∀ level rest, markOf (whole.text style level ++ rest) = "[" ↔
      object.OpensBracket := by
    intro level rest
    rw [htext, List.append_assoc]
    exact hverdict.opens_longer (object.objectText_cases style level)
      fun hopen => ⟨hopen.objectText style level, hopen.strength⟩
  refine .of_longer part hwhole hverdict htext (fun level => ?_)
    (fun level rest => ⟨(hpart level rest).2, (hpart level rest).1.ends⟩)
    (fun _ level rest => (hmark level rest).trans hopens.symm)
    (fun level rest hbracket => mt hlike.mp (not_not.mpr ((hmark level rest).mp hbracket)))
    fun level d rest hd hbracket hrest hstops => ?_
  · refine (object.objectText_cases style level).imp_right fun hcase => ⟨hcase.1, ?_⟩
    exact Nat.le_trans (by decide : Strength.postfixed ≤ Strength.call) hcase.2
  · rw [Ne, hmark, ← hlike] at hbracket
    rw [htext, List.length_append] at hd
    rw [htext, List.append_assoc]
    have hchain : Chains (depth d) true false (object.objectText style level) object :=
      hobject.chains_objectText level (by omega) (.inl rfl)
    exact .of_reads hbracket (reads_target_of_form ((hchain.reads_suffix (hne level)
      (hpart level rest).1 (fun o => hsuffix level d rest o (by omega) hrest.toFollows)
        hstops).imp fun _ => .inr))

theorem patternVerdict_member
    {span span' : Span} {object : Node} {name : String}
    (hplain : object.Plain .operand)
    (hverdict : object.PatternVerdict style)
    (hname : isNameText name.toList = true) :
    (Node.mk .memberExpression span [(.object, .node object),
      (.property, .node (.identifier name span')), (.computed, .flag false),
        (.optional, .flag false)]).PatternVerdict style := by
  have hmark := fun rest => markAt_member hname rest
  refine .of_member (fun _ => '.' :: name.toList) ⟨_, _, _, _, rfl⟩
    (rereads_member hplain (hplain.rereadsAs style) hname) (hplain.rereadsAs style) hverdict
    (fun _ => Node.text_member) (fun _ => by simp) (fun _ rest => ⟨?_, ?_⟩)
    fun level d rest o _ hrest => ?_
  · exact chainFollows_of_mark (fun tail => markOf_eq (hmark tail)) (by decide) (by decide) rest
  · exact .of_mark (hmark rest) (by decide)
  · refine (reads_suffix_member hname hrest.ends).imp fun found hfound => ?_
    obtain ⟨longer, -, -, hlonger, hform, -⟩ := hfound
    exact ⟨longer, hlonger, hform⟩

theorem patternVerdict_element
    {span : Span} {object index : Node}
    (hplain : object.Plain .operand)
    (hplain' : index.Plain .operand)
    (hverdict : object.PatternVerdict style) :
    (Node.mk .memberExpression span [(.object, .node object), (.property, .node index),
      (.computed, .flag true), (.optional, .flag false)]).PatternVerdict style := by
  have hindex : index.Rereads style := hplain'.rereadsAs style
  have hmark : ∀ rest, markAt ('[' :: rest) = some ("[", rest) := markAt_bracket
  refine .of_member (fun level => '[' :: (index.text style level ++ [']'])) ⟨_, _, _, _, rfl⟩
    (rereads_element hplain hplain' (hplain.rereadsAs style) hindex)
    (hplain.rereadsAs style) hverdict (fun level => ?_) (fun _ => by simp) (fun _ rest => ⟨?_, ?_⟩)
    fun level d rest o hd hrest => ?_
  · rw [Node.text_element, Node.operandText_sequence]
  · exact chainFollows_of_mark (fun tail => markOf_eq (hmark _)) (by decide) (by decide) rest
  · exact .of_mark (hmark _) (by decide)
  · simp only [List.length_append, List.length_cons, List.length_nil] at hd
    have hinner := hindex.expressions level d false (']' :: rest) (by omega)
      (.closer (by decide : (']', "]") ∈ closers) 0 rest)
      (by rw [markOf_eq (markAt_closer (by decide : (']', "]") ∈ closers) rest)]; decide)
    rw [List.cons_append, List.append_assoc]
    refine (reads_suffix_element hinner).imp fun found hfound => ?_
    obtain ⟨longer, -, -, hlonger, hform, -⟩ := hfound
    exact ⟨longer, hlonger, hform⟩

/-- A chain whose last part makes it no target. -/
theorem Node.PatternVerdict.of_chain
    {whole : Node} {place : Nat → List Char}
    (part : Nat → List Char)
    (hwhole : whole.Rereads style)
    (hstrength : Strength.postfixed ≤ Strength.of whole)
    (hkind : ¬(whole.kind = .identifier ∨ whole.kind = .memberExpression))
    (hlike : ¬ whole.PatternLike)
    (hverdict : n.PatternVerdict style)
    (htext : ∀ level, whole.text style level = place level ++ part level)
    (hplace : ∀ level, (∃ rest, place level = '(' :: rest) ∨
      place level = n.text style level ∧ Strength.postfixed ≤ Strength.of n)
    (hpart : ∀ level rest, Missed (part level ++ rest) ∧ endsName (part level ++ rest) = true)
    (hopens : Strength.call ≤ Strength.of whole → ∀ level rest,
      markOf (whole.text style level ++ rest) = "[" ↔ whole.OpensBracket) :
    whole.PatternVerdict style :=
  .of_longer part hwhole hverdict htext hplace hpart hopens (fun _ _ _ => hlike)
    fun _ _ _ hd _ hrest hstops =>
      .of_ends hlike (.of_fails (hwhole.fails_target hstrength hkind hd hrest hstops))

theorem patternVerdict_call
    {span : Span} {callee : Node} {args : List Node}
    (hplain : callee.Plain .operand)
    (hplain' : ∀ n ∈ args, n.Plain .argument)
    (hverdict : callee.PatternVerdict style) :
    (Node.mk .callExpression span [(.callee, .node callee), (.arguments, .list args),
      (.optional, .flag false)]).PatternVerdict style := by
  have hplace := fun level => callee.operandText_cases style level Strength.call
  refine .of_chain (fun level => '(' :: (joined (itemTexts style level args) ++ [')']))
    ((Node.Plain.call hplain hplain').rereadsAs style)
    (by decide : Strength.postfixed ≤ Strength.call) (by simp [Node.kind]) nofun
    hverdict (fun _ => Node.text_call) (fun level => ?_)
    (fun level rest => ⟨.of_mark (markAt_open _) (by decide), rfl⟩) fun _ level rest => ?_
  · refine (hplace level).imp_right fun hcase => ⟨hcase.1, ?_⟩
    exact Nat.le_trans (by decide : Strength.postfixed ≤ Strength.call) hcase.2
  · rw [Node.text_call, List.append_assoc, hverdict.opens_longer (hplace level)
      fun hopen => ⟨hopen.operandText_call style level, hopen.strength⟩]
    refine ⟨.call, fun hopen => ?_⟩
    cases hopen with
    | call hopen => exact hopen

theorem patternVerdict_update_behind
    {span : Span} {operator : String}
    (hoperator : operator ∈ ["++", "--"])
    (hplain : n.Plain .operand)
    (hverdict : n.PatternVerdict style) :
    (Node.mk .updateExpression span [(.operator, .text operator), (.argument, .node n),
      (.prefixed, .flag false)]).PatternVerdict style := by
  refine .of_chain (fun _ => operator.toList)
    ((Node.Plain.update hoperator hplain).rereadsAs style)
    (Nat.le_refl Strength.postfixed) (by simp [Node.kind]) nofun hverdict
    (fun _ => Node.text_update) (fun level => n.operandText_cases style level _)
    (fun level rest => ⟨?_, ?_⟩)
    fun hcall => absurd hcall (by decide : ¬Strength.call ≤ Strength.postfixed)
  · have hall : ∀ mark ∈ ["++", "--"], mark ∉ [",", ")", "]", "="] := by decide
    exact .of_mark (markAt_update hoperator rest) (hall operator hoperator)
  · simp only [List.mem_cons, List.not_mem_nil, or_false] at hoperator
    rcases hoperator with rfl | rfl <;> rfl

theorem patternVerdict_unary_word
    {span : Span} {operator : String}
    (hoperator : operator ∈ unaryWords) :
    (Node.mk .unaryExpression span [(.operator, .text operator),
      (.argument, .node n)]).PatternVerdict style := by
  have hfacts : ∀ word ∈ unaryWords, word.toList.all Char.isAlpha = true ∧
      (word == "+" || word == "-") = false ∧ isNameText word.toList = true := by decide
  obtain ⟨halpha, hsign, hname⟩ := hfacts operator hoperator
  refine .of_weak (by decide : Strength.unary < Strength.postfixed) nofun
    fun _ _ level d rest _ _ => ?_
  rw [Node.text_unary, if_pos halpha, Node.fuses, hsign]
  simp only [Bool.false_and, Bool.false_eq_true, if_false, List.nil_append, List.append_assoc,
    List.cons_append]
  refine .of_goesOn (goesOn_assignable_target ?_) fun _ _ =>
    .of_fails (fails_primary_word (List.mem_append_right _ hoperator) rfl).bind
  rw [markOf, markAt_of_isNameText hname]
  decide

/-- An operand with a sign in front. -/
theorem Node.PatternVerdict.of_sign
    (hn : n.Rereads style)
    (hstrength : Strength.of n = Strength.unary)
    (hlike : ¬ n.PatternLike)
    (htext : ∀ level, ∃ c rest, c ∈ ['!', '~', '+', '-'] ∧ n.text style level = c :: rest) :
    n.PatternVerdict style := by
  refine .of_weak (by rw [hstrength]; decide) hlike fun _ _ level d rest _ hrest => ?_
  obtain ⟨c, more, hc, hchars⟩ := htext level
  have hopens := (hn.leading level).opens rest hrest
  rw [hchars, List.cons_append] at hopens ⊢
  refine .of_goesOn (goesOn_assignable_target fun hmark => ?_) fun _ _ =>
    .of_fails (fails_primary_sign hc hopens.fresh).bind
  have hhead : ∀ mark ∈ ["[", "\x7b"], markOf (c :: (more ++ rest)) = mark →
      mark.toList.head? = some c := by
    intro mark hmem hmark
    refine head?_of_markOf hopens.fresh hmark ?_
    rintro rfl
    exact absurd hmem (by decide)
  have hall : ∀ mark ∈ ["[", "\x7b"], mark.toList.head? ∉ ['!', '~', '+', '-'].map some := by
    decide
  exact hall _ hmark (hhead _ hmark rfl ▸ List.mem_map_of_mem hc)

theorem patternVerdict_unary_sign
    {span : Span} {c : Char} {operator : String}
    (hoperator : (c, operator) ∈ unarySigns) (hplain : n.Plain .operand) :
    (Node.mk .unaryExpression span [(.operator, .text operator),
      (.argument, .node n)]).PatternVerdict style := by
  have hfacts : ∀ sign ∈ unarySigns, sign.2 ∈ unaryOperators ∧
      sign.1 ∈ ['!', '~', '+', '-'] ∧ sign.2.toList = [sign.1] := by decide
  obtain ⟨hunary, hsign, hchars⟩ := hfacts _ hoperator
  simp only at hunary hsign hchars
  refine .of_sign ((Node.Plain.unary hunary hplain).rereadsAs style) rfl nofun fun level => ?_
  rw [Node.text_unary, hchars]
  exact ⟨c, _, hsign, rfl⟩

theorem patternVerdict_update_before
    {span : Span} {operator : String}
    (hoperator : operator ∈ ["++", "--"]) (hplain : n.Plain .operand) :
    (Node.mk .updateExpression span [(.operator, .text operator), (.argument, .node n),
      (.prefixed, .flag true)]).PatternVerdict style := by
  refine .of_sign ((Node.Plain.update hoperator hplain).rereadsAs style) rfl nofun fun level => ?_
  rw [Node.text_update, if_pos rfl]
  simp only [List.mem_cons, List.not_mem_nil, or_false] at hoperator
  rcases hoperator with rfl | rfl
  · exact ⟨'+', _, by decide, rfl⟩
  · exact ⟨'-', _, by decide, rfl⟩

/-- The left operand of an operator, which stands too far from an item to be one. -/
theorem Node.PatternVerdict.misses_operandText
    {least : Nat} {rest : List Char}
    (hverdict : n.PatternVerdict style)
    (hn : n.Rereads style)
    (hleast : Strength.assignment < least)
    (hd : 2 * (n.operandText style level least).length ≤ d)
    (hrest : ChainFollows true rest)
    (hstops : suffixStops true rest)
    (hmissed : Missed rest) :
    Ends (assignable (depth d)) (n.operandText style level least ++ rest) Missed := by
  rw [Node.operandText_eq] at hd ⊢
  split at hd
  case isTrue hweak =>
    rw [if_pos hweak]
    exact hn.ends_assignable_group hd hrest.toFollows hstops
  case isFalse hstrong =>
    rw [if_neg hstrong]
    have hkinds := Node.kinds_ne_of_strength (by omega : Strength.assignment < Strength.of n)
    exact (hverdict.decides hkinds.1 hkinds.2 level d rest hd
      ⟨hrest.ends, .inr ⟨hrest, hstops⟩⟩).ends_of_output fun _ => hmissed

theorem binaryKind_cases
    {kind : Kind} {operator : String}
    (hkind : kind = binaryKind operator) :
    kind = .binaryExpression ∨ kind = .logicalExpression := by
  rw [hkind, binaryKind]
  split
  · exact .inr rfl
  · exact .inl rfl

theorem strength_binary
    {kind : Kind} {span : Span} {operator : String} {left right : Node}
    (hkind : kind = .binaryExpression ∨ kind = .logicalExpression) :
    Strength.of (.mk kind span [(.operator, .text operator), (.left, .node left),
      (.right, .node right)]) = Strength.binary operator := by
  rcases hkind with rfl | rfl
  all_goals simp [Strength.of, Node.text?, Node.scalar?, Node.slot?, Slot.text]

theorem patternVerdict_binary
    {kind : Kind} {span : Span} {operator : String} {left right : Node}
    (hoperator : operator ∈ binaryOperators)
    (hkind : kind = binaryKind operator)
    (hplain : left.Plain .operand)
    (hverdict : left.PatternVerdict style) :
    (Node.mk kind span [(.operator, .text operator), (.left, .node left),
      (.right, .node right)]).PatternVerdict style := by
  have hcases := binaryKind_cases hkind
  have hstrength : Strength.of (.mk kind span [(.operator, .text operator), (.left, .node left),
      (.right, .node right)]) < Strength.postfixed := by
    rw [strength_binary hcases]
    exact Nat.lt_succ_of_lt (binary_bounds operator hoperator).2.2.2.2.2
  have hfacts : ∀ operator ∈ binaryOperators, operator ∉ [",", ")", "]", "="] ∧
      operator ∉ suffixMarks ∧ operator ∉ ["=>"] := by decide
  obtain ⟨hmissed, hsuffix, harrow⟩ := hfacts operator hoperator
  refine .of_weak hstrength nofun fun _ _ level d rest hd _ => ?_
  rw [Node.text_binary hcases] at hd ⊢
  rw [List.length_append] at hd
  simp only [List.cons_append, List.append_assoc]
  refine hverdict.misses_operandText (hplain.rereadsAs style)
    (Node.assignment_lt_leftLeast hoperator left) (by omega) ⟨⟨rfl, ?_⟩, by simp⟩
    (suffixStops_of_notMem (markOf_binary_notMem hoperator _ hsuffix (by decide)) true)
    (markOf_binary_notMem hoperator _ hmissed (by decide))
  simpa using markOf_binary_notMem hoperator _ harrow (by decide)

theorem patternVerdict_conditional
    {span : Span} {test consequent alternate : Node}
    (hplain : test.Plain .operand) (hverdict : test.PatternVerdict style) :
    (Node.mk .conditionalExpression span [(.test, .node test), (.consequent, .node consequent),
      (.alternate, .node alternate)]).PatternVerdict style := by
  have hmark : ∀ rest, markAt (' ' :: '?' :: ' ' :: rest) = some ("?", ' ' :: rest) := by
    intro rest
    rw [markAt_space]
    exact markAt_spaced (by decide : "?" ∈ punctuators) rest
  refine .of_weak (by decide : Strength.conditional < Strength.postfixed) nofun
    fun _ _ level d rest hd _ => ?_
  rw [Node.text_conditional] at hd ⊢
  rw [List.length_append] at hd
  simp only [List.cons_append, List.append_assoc]
  refine hverdict.misses_operandText (hplain.rereadsAs style) (by decide) (by omega)
    ⟨⟨rfl, ?_⟩, by simp⟩ (suffixStops_of_notMem ?_ true) (.of_mark (hmark _) (by decide))
  all_goals
    rw [markOf_eq (hmark _)]
    decide

theorem patternVerdict_new
    {span : Span} {callee : Node} {args : List Node}
    (hplain : callee.Plain .operand) (hplain' : ∀ n ∈ args, n.Plain .argument) :
    (Node.mk .newExpression span [(.callee, .node callee),
      (.arguments, .list args)]).PatternVerdict style := by
  refine .of_leaf ((Node.Plain.new hplain hplain').rereadsAs style)
    (by decide : Strength.call ≤ Strength.construct) (fun level rest => ?_) (by simp [Node.kind])
    nofun nofun
  have hword : "new ".toList = "new".toList ++ [' '] := rfl
  rw [Node.text_new, hword, List.append_assoc, List.append_assoc, markOf,
    markAt_of_isNameText (by decide)]
  rfl

/-- Constants, which start with a word, a digit or a quote. -/
theorem Node.Simple.patternVerdict
    (hn : n.Simple) (hkind : n.kind = .literal ∨ n.kind = .thisExpression) :
    n.PatternVerdict style := by
  refine .of_leaf (hn.plain.rereadsAs style) hn.strength (hn.markOf_text style) ?_
    (fun hopen => ?_) fun hlike => ?_
  · rcases hkind with hkind | hkind <;> simp [hkind]
  · cases hopen <;> simp [Node.kind] at hkind
  · cases hlike <;> simp [Node.kind, Node.identifier] at hkind

theorem patternVerdict_assignment
    {span : Span} {operator : String} {left right : Node} :
    (Node.mk .assignmentExpression span [(.operator, .text operator), (.left, .node left),
      (.right, .node right)]).PatternVerdict style :=
  .of_weak (by decide : Strength.assignment < Strength.postfixed) nofun
    fun hkind => absurd rfl hkind

theorem patternVerdict_sequence {span : Span} {ns : List Node} :
    (Node.mk .sequenceExpression span [(.expressions, .list ns)]).PatternVerdict style :=
  .of_weak (by decide : Strength.sequence < Strength.postfixed) nofun
    fun _ hkind => absurd rfl hkind

/-! ## Items of lists -/

theorem Node.PatternLike.strength (hn : n.PatternLike) : Strength.call ≤ Strength.of n := by
  cases hn with
  | name => exact (by decide : Strength.call ≤ Strength.primary)
  | member => exact (by decide : Strength.call ≤ Strength.member)
  | array => exact (by decide : Strength.call ≤ Strength.primary)

/-- What may stand in front of a pattern. -/
def patternLeads : List (List Char) := [[], "...".toList]

/-- A text behind what may stand in front of a pattern, which starts anew there. -/
theorem decides_pattern_lead
    {Q : List Char → Prop} {like : Prop} {lead text output : List Char}
    (hlead : lead ∈ patternLeads)
    (hfresh : isFresh text = true)
    (hdots : markOf text ≠ "...")
    (hread : Decides Q like (assignable (depth d)) text output) :
    Decides Q like (depth (d + 1)).pattern (lead ++ text) output := by
  simp only [patternLeads, List.mem_cons, List.not_mem_nil, or_false] at hlead
  rcases hlead with rfl | rfl
  · exact decides_pattern hread hfresh hdots
  · exact decides_pattern_rest hread

theorem Node.PatternVerdict.decides_lead
    {lead rest : List Char}
    (hverdict : n.PatternVerdict style)
    (hn : n.Rereads style)
    (hkinds : n.kind ≠ .assignmentExpression ∧ n.kind ≠ .sequenceExpression)
    (hlead : lead ∈ patternLeads)
    (hd : 2 * (n.text style level).length ≤ d)
    (hrest : ChainFollows true rest)
    (hstops : suffixStops true rest) :
    Decides Missed n.PatternLike (depth (d + 1)).pattern
      (lead ++ (n.text style level ++ rest)) rest :=
  decides_pattern_lead hlead ((hn.leading level).opens rest hrest.ends).fresh
    ((hn.leading level).markOf_ne hrest.ends (by decide))
    (hverdict.decides hkinds.1 hkinds.2 level d rest hd ⟨hrest.ends, .inr ⟨hrest, hstops⟩⟩)

namespace Node.ItemVerdict

variable {lead : List Char} (hlead : lead ∈ patternLeads)

include hlead

theorem of_pattern
    (hplain : n.Plain .operand)
    (hkind : n.kind ≠ .assignmentExpression)
    (hverdict : n.PatternVerdict style) :
    n.ItemVerdict style lead := by
  intro level d hd α finish hfinish tail htail
  obtain ⟨d, rfl⟩ : ∃ k, d = k + 1 := ⟨d - 1, by omega⟩
  have hn : n.Rereads style := hplain.rereadsAs style
  have hstops := suffixStops_of_notMem htail.noSuffix true
  have hlike : n.ParameterLike ↔ n.PatternLike := by
    refine ⟨fun hlike => ?_, .pattern⟩
    cases hlike with
    | pattern hlike => exact hlike
    | withDefault => exact absurd rfl hkind
    | rest => cases hplain
  have hequal : markOf tail ≠ "=" := fun heq => htail.noAssignment (by rw [heq]; decide)
  rw [List.append_assoc, hlike]
  refine decides_defaulted hfinish ?_ (.inl ⟨rfl, hequal⟩)
  rw [Node.operandText_eq] at hd ⊢
  split at hd
  case isTrue hweak =>
    have hnot : ¬ n.PatternLike := fun hlike => by
      have hcall : Strength.assignment ≤ Strength.call := by decide
      have hstrength := hlike.strength
      omega
    rw [if_pos hweak]
    refine decides_pattern_lead hlead rfl ?_
      (.of_ends hnot (hn.ends_assignable_group (by omega) htail.toFollows hstops))
    rw [List.cons_append, markOf_eq (markAt_open _)]
    decide
  case isFalse hstrong =>
    rw [if_neg hstrong]
    have hkind' := Node.kind_ne_of_strength (Nat.lt_of_lt_of_le (by decide) (Nat.not_lt.mp hstrong))
    exact hverdict.decides_lead hn ⟨hkind, hkind'⟩ hlead (by omega) (htail.chainFollows true) hstops

theorem of_assignment
    {span : Span} {operator : String} {left right : Node}
    (hoperator : operator ∈ assignmentMarks)
    (hplain : left.Plain .operand)
    (htarget : left.isTarget = true)
    (hplain' : right.Plain .operand)
    (hverdict : left.PatternVerdict style) :
    (Node.mk .assignmentExpression span [(.operator, .text operator), (.left, .node left),
      (.right, .node right)]).ItemVerdict style lead := by
  have hright : right.Rereads style := hplain'.rereadsAs style
  have hstrength : Strength.call ≤ Strength.of left :=
    Nat.le_trans (by decide) (Node.member_le_strength_of_isTarget htarget)
  have hkinds := Node.kinds_ne_of_strength
    (Nat.lt_of_lt_of_le (by decide : Strength.assignment < Strength.call) hstrength)
  have hmark : ∀ rest, markAt (' ' :: (operator.toList ++ ' ' :: rest)) =
      some (operator, ' ' :: rest) := by
    intro rest
    rw [markAt_space, markAt_spaced (assignmentMarks_subset operator hoperator)]
  have hfacts : ∀ operator ∈ assignmentMarks, operator ≠ "=>" ∧ operator ∉ suffixMarks ∧
      operator ∉ [",", ")", "]"] := by decide
  obtain ⟨harrow, hsuffix, hlist⟩ := hfacts operator hoperator
  intro level d hd α finish hfinish tail htail
  obtain ⟨d, rfl⟩ : ∃ k, d = k + 1 := ⟨d - 1, by omega⟩
  have hof : ¬ Strength.of (.mk .assignmentExpression span [(.operator, .text operator),
      (.left, .node left), (.right, .node right)]) < Strength.assignment :=
    Nat.lt_irrefl Strength.assignment
  rw [Node.operandText_eq, if_neg hof, Node.text_assignment,
    Node.operandText_eq style level Strength.call left, if_neg (Nat.not_lt.mpr hstrength)] at hd ⊢
  simp only [List.length_cons, List.length_append] at hd
  simp only [List.append_assoc, List.cons_append]
  have hpattern : ∀ rest, Decides Missed left.PatternLike (depth (d + 1)).pattern
      (lead ++ (left.text style level ++ ' ' :: (operator.toList ++ ' ' :: rest)))
        (' ' :: (operator.toList ++ ' ' :: rest)) := by
    refine fun rest => hverdict.decides_lead (hplain.rereadsAs style) hkinds hlead (by omega)
      ⟨⟨rfl, ?_⟩, by simp⟩ (suffixStops_of_notMem ?_ true)
    all_goals rwa [markOf_eq (hmark rest)]
  by_cases hequal : operator = "="
  · subst hequal
    have hlike : (Node.mk .assignmentExpression span [(.operator, .text "="), (.left, .node left),
        (.right, .node right)]).ParameterLike ↔ left.PatternLike := by
      refine ⟨fun hlike => ?_, .withDefault⟩
      cases hlike with
      | pattern hlike => cases hlike
      | withDefault hlike => exact hlike
    have hlength : 2 * (right.operandText style level Strength.assignment).length < d + 1 := by
      omega
    have hvalue := hright.reads_operandText level false (by decide) hlength
      (fun _ => Nat.zero_le _) htail
    rw [hlike]
    exact decides_defaulted hfinish (hpattern _) (.inr ⟨_, hmark _,
      .blank (skips_operation (d + 1) 0) rfl (hvalue.imp fun _ _ => trivial)⟩)
  · refine .of_ends (fun hlike => ?_) (ends_defaulted hfinish
      ((hpattern _).ends_of_output fun _ => .of_mark (hmark _) fun hmem => ?_))
    · cases hlike with
      | pattern hlike => cases hlike
      | withDefault => exact hequal rfl
    · simp only [List.mem_cons, List.not_mem_nil, or_false, not_or] at hlist hmem
      tauto

end Node.ItemVerdict

theorem itemVerdict_spread {span : Span} (hverdict : n.ItemVerdict style "...".toList) :
    (Node.mk .spreadElement span [(.argument, .node n)]).ItemVerdict style [] := by
  intro level d hd α finish hfinish
  have hof : ¬ Strength.of (.mk .spreadElement span [(.argument, .node n)]) < Strength.assignment :=
    (by decide : ¬Strength.primary < Strength.assignment)
  have hlike : (Node.mk .spreadElement span [(.argument, .node n)]).ParameterLike ↔
      n.ParameterLike := by
    refine ⟨fun hlike => ?_, .rest⟩
    cases hlike with
    | pattern hlike => cases hlike
    | rest hlike => exact hlike
  rw [Node.operandText_eq, if_neg hof, Node.text_spread, List.length_append] at hd
  rw [Node.operandText_eq, if_neg hof, Node.text_spread, List.nil_append, hlike]
  exact hverdict level d (by omega) finish hfinish

/-- What comes of reading a plain tree as a pattern, in any of its places. -/
def Node.VerdictAs (style : Style) : Role → Node → Prop
  | .operand, n => n.PatternVerdict style ∧ ∀ lead ∈ patternLeads, n.ItemVerdict style lead
  | .argument, n => n.ItemVerdict style []

theorem Node.Plain.verdictAs {role : Role} (hn : n.Plain role) (style : Style) :
    n.VerdictAs style role := by
  -- Only an assignment is an item in another way than as a pattern.
  have hitem : ∀ {n : Node}, n.Plain .operand → n.kind ≠ .assignmentExpression →
      n.PatternVerdict style → n.VerdictAs style .operand :=
    fun hn hkind hverdict => ⟨hverdict, fun _ hlead => .of_pattern hlead hn hkind hverdict⟩
  induction hn with
  | variableName hname => exact hitem (.variableName hname) nofun (.of_name hname)
  | integer hne hraw =>
      exact hitem (.integer hne hraw) nofun ((Simple.integer hne hraw).patternVerdict (.inl rfl))
  | string hvalue =>
      exact hitem (.string hvalue) nofun ((Simple.string hvalue).patternVerdict (.inl rfl))
  | constant hword =>
      exact hitem (.constant hword) nofun ((Simple.constant hword).patternVerdict (.inl rfl))
  | this => exact hitem .this nofun (Simple.this.patternVerdict (.inr rfl))
  | array hargs ih => exact hitem (.array hargs) nofun (.of_array hargs ih)
  | member hobject hname ih =>
      exact hitem (.member hobject hname) nofun (patternVerdict_member hobject ih.1 hname)
  | element hobject hindex ih _ =>
      exact hitem (.element hobject hindex) nofun (patternVerdict_element hobject hindex ih.1)
  | call hcallee hargs ih _ =>
      exact hitem (.call hcallee hargs) nofun (patternVerdict_call hcallee hargs ih.1)
  | new hcallee hargs => exact hitem (.new hcallee hargs) nofun (patternVerdict_new hcallee hargs)
  | unary hoperator hargument =>
      refine hitem (.unary hoperator hargument) nofun ?_
      rcases List.mem_append.mp hoperator with hword | hsign
      · exact patternVerdict_unary_word hword
      · obtain ⟨⟨c, operator⟩, hmem, rfl⟩ := List.mem_map.mp hsign
        exact patternVerdict_unary_sign hmem hargument
  | @update span operator argument prefixed hoperator hargument ih =>
      refine hitem (.update hoperator hargument) nofun ?_
      cases prefixed
      · exact patternVerdict_update_behind hoperator hargument ih.1
      · exact patternVerdict_update_before hoperator hargument
  | binary hoperator hkind hleft hright ih _ =>
      refine hitem (.binary hoperator hkind hleft hright) ?_
        (patternVerdict_binary hoperator hkind hleft ih.1)
      rcases binaryKind_cases hkind with rfl | rfl <;> exact nofun
  | assignment hoperator hleft htarget hright ih _ =>
      exact ⟨patternVerdict_assignment, fun lead hlead =>
        .of_assignment hlead hoperator hleft htarget hright ih.1⟩
  | conditional htest hconsequent halternate ih =>
      exact hitem (.conditional htest hconsequent halternate) nofun
        (patternVerdict_conditional htest ih.1)
  | sequence hlength hns =>
      exact hitem (.sequence hlength hns) nofun patternVerdict_sequence
  | value _ ih => exact ih.2 [] (by decide)
  | spread _ ih => exact itemVerdict_spread (ih.2 _ (by decide))

/-! ## Lists of parameters -/

theorem decides_parameters_arguments
    {args : List Node}
    (hargs : ∀ n ∈ args, n.Plain .argument)
    (hd : 2 * (joined (itemTexts style level args)).length < d) :
    Decides (fun _ => False) (∀ n ∈ args, n.ParameterLike) (parameters (depth d))
      ('(' :: (joined (itemTexts style level args) ++ ')' :: tail)) tail := by
  have hitems : ∀ n ∈ args, n.RereadsItem style := fun n hn => (hargs n hn).rereadsAs style
  refine decides_parameters (fun n hn => ?_) fun n hn tail htail => ?_
  · exact ((hitems n hn).item level _ (Nat.lt_succ_self _)).mark
  · have hlength : 2 * (n.operandText style level Strength.assignment).length < d := by
      have hle := length_le_joined
        (List.mem_map_of_mem (f := Node.operandText style level Strength.assignment) hn)
      rw [itemTexts] at hd
      omega
    have hverdict : n.ItemVerdict style [] := (hargs n hn).verdictAs style
    rw [parameter_eq]
    refine .after (Reads.start (skipped_of_isFresh
      (((hitems n hn).item level d hlength).fresh tail htail.ends))) fun origin _ => ?_
    refine hverdict level d hlength _ (fun left right rest => ?_) tail htail
    cases right with
    | none => exact .of_pure trivial
    | some right => exact .node fun _ => trivial

theorem Node.Plain.assignment_le_strength
    (hn : n.Plain .operand) (hkind : n.kind ≠ .sequenceExpression) :
    Strength.assignment ≤ Strength.of n := by
  cases hn with
  | sequence => exact absurd rfl hkind
  | @binary _ _ operator _ _ hoperator hbinary =>
      rw [strength_binary (binaryKind_cases hbinary)]
      exact Nat.le_trans (by decide) (binary_bounds operator hoperator).1
  | @update _ _ _ prefixed => cases prefixed <;> exact Nat.le_of_ble_eq_true rfl
  | _ => exact Nat.le_of_ble_eq_true rfl

/-- What stands in parentheses, as the arguments that it is printed like. -/
theorem Node.Plain.exists_arguments
    (hn : n.Plain .operand)
    (style : Style) (level : Nat) :
    ∃ args : List Node, (∀ m ∈ args, m.Plain .argument) ∧
      n.text style level = joined (itemTexts style level args) ∧
        (n.ParametersLike ↔ ∀ m ∈ args, m.ParameterLike) := by
  by_cases hkind : n.kind = .sequenceExpression
  · cases hn with
    | @sequence span ns hlength hns =>
        refine ⟨ns, fun m hm => .value (hns m hm), Node.text_sequence, fun hlike => ?_, .several⟩
        cases hlike with
        | single hlike =>
            cases hlike with
            | pattern hlike => cases hlike
        | several hlike => exact hlike
    | binary _ hbinary => rcases binaryKind_cases hbinary with rfl | rfl <;> cases hkind
    | _ => cases hkind
  · refine ⟨[n], List.forall_mem_singleton.mpr (.value hn), ?_, ?_⟩
    · have hstrength := hn.assignment_le_strength hkind
      rw [itemTexts, List.map_singleton, Node.operandText_eq, if_neg (by omega)]
      simp [joined]
    · rw [List.forall_mem_singleton]
      refine ⟨fun hlike => ?_, .single⟩
      cases hlike with
      | single hlike => exact hlike
      | several => exact absurd rfl hkind

theorem decides_parameters_test
    {test : Node}
    (htest : test.Plain .operand) (hd : 2 * (test.text style level).length < d) :
    Decides (fun _ => False) test.ParametersLike (parameters (depth d))
      ('(' :: (test.text style level ++ ')' :: tail)) tail := by
  obtain ⟨args, hargs, htext, hiff⟩ := htest.exists_arguments style level
  rw [htext] at hd ⊢
  rw [hiff]
  exact decides_parameters_arguments hargs hd

end Graft
