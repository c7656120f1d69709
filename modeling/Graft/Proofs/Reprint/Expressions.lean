import Graft.Proofs.PureLayout
import Graft.Proofs.Reprint.Opening
import Graft.Proofs.Reprint.Strengths
import Graft.Proofs.Shape

/-!
# Printed expressions read back

The text of every plain expression is read back as an expression of the same structure, in front of
any text that may follow it.
-/

namespace Graft

open Grammar

variable {style : Style} {d least : Nat} {n : Node} {calls : Bool} {tail : List Char}

/-! ## Weaker readings -/

namespace Grammar

theorem Chains.of_false
    {g : Productions} {text : List Char}
    (hchain : Chains g calls false text n)
    (integer : Bool) :
    Chains g calls integer text n :=
  fun lineEnds tail htail => hchain lineEnds tail ⟨htail.toFollows, by simp⟩

theorem Operates.mono
    {g : Productions} {strength strength' reach reach' : Nat} {text : List Char}
    (hoperates : Operates g strength reach text n)
    (hstrength : strength' ≤ strength)
    (hreach : reach' ≤ reach) :
    Operates g strength' reach' text n :=
  fun least lineEnds tail hleast htail =>
    hoperates least lineEnds tail (Nat.le_trans hleast hstrength) (htail.mono hreach)

theorem Operates.of_chain
    {g : Productions} {integer : Bool} {text : List Char} {strength reach : Nat}
    (hchain : Chains g true integer text n) (hleading : LeadingPlainly text) :
    Operates g strength reach text n :=
  .of_operand fun _ tail htail =>
    reads_operand_chain hchain (hleading.plainly tail htail.ends) htail

end Grammar

/-! ## Expressions that read back -/

/-- The text of an operand is read back wherever an operand may stand.  The grammar needs a depth
that grows with the text, since every pair of brackets takes one more production. -/
structure Node.Rereads (style : Style) (n : Node) : Prop where
  strengths : n.Strengths
  leading : ∀ level, Leading (n.text style level)
  plainly : Strength.postfixed ≤ Strength.of n → ∀ level, LeadingPlainly (n.text style level)
  /-- Without calls the chain is the operand of `new`. -/
  chains : Strength.postfixed ≤ Strength.of n → ∀ level d calls,
    2 * (n.text style level).length ≤ d →
      (calls = true ∨ Strength.call ≤ Strength.of n ∧ (n.printed style).startsWithCall = false) →
        Chains (depth d) calls (Parts.isBareInteger n) (n.text style level) n
  operates : n.kind ≠ .sequenceExpression → ∀ level d, 2 * (n.text style level).length ≤ d →
    Operates (depth d) n.level n.reach (n.text style level) n
  expressions : ∀ level d lineEnds tail, 2 * (n.text style level).length < d → Stops 0 tail →
    markOf tail ≠ "," → Reads ((depth d).expressions lineEnds) (n.text style level ++ tail) tail
      fun found => found.sameStructure n = true

theorem Node.kind_ne_of_strength {n : Node} (hof : 0 < Strength.of n) :
    n.kind ≠ .sequenceExpression := by
  intro hkind
  rw [Strength.of, hkind] at hof
  exact Nat.lt_irrefl _ hof

theorem reads_operation
    {strength : Nat} {lineEnds : Bool} {text : List Char} {level' reach : Nat}
    (hoperates : ∀ d, 2 * text.length ≤ d → Operates (depth d) level' reach text n)
    (hstrength : strength ≤ level')
    (hreach : level' ≤ reach)
    (hd : 2 * text.length < d)
    (htail : Stops strength tail) :
    Reads ((depth d).operation strength lineEnds) (text ++ tail) tail fun o =>
      o.node.sameStructure n = true := by
  obtain ⟨d, rfl⟩ : ∃ k, d = k + 1 := ⟨d - 1, by omega⟩
  exact (hoperates d (by omega)).reads hstrength hreach htail

/-- What is read as an operation is read as an expression. -/
theorem Node.Rereads.of_operates
    (hstrengths : n.Strengths)
    (hleading : ∀ level, Leading (n.text style level))
    (hplainly : Strength.postfixed ≤ Strength.of n → ∀ level, LeadingPlainly (n.text style level))
    (hchains : Strength.postfixed ≤ Strength.of n → ∀ level d calls,
      2 * (n.text style level).length ≤ d →
        (calls = true ∨ Strength.call ≤ Strength.of n ∧ (n.printed style).startsWithCall = false) →
          Chains (depth d) calls (Parts.isBareInteger n) (n.text style level) n)
    (hoperates : ∀ level d, 2 * (n.text style level).length ≤ d →
      Operates (depth d) n.level n.reach (n.text style level) n) :
    n.Rereads style where
  strengths := hstrengths
  leading := hleading
  plainly := hplainly
  chains := hchains
  operates _ := hoperates
  expressions level d lineEnds tail hd htail hcomma := by
    refine reads_expressions_single (fun tail htail => ?_) htail hcomma
    exact reads_operation (hoperates level) (Nat.zero_le _) n.level_le_reach hd htail

theorem Node.Rereads.of_chains
    (hstrengths : n.Strengths)
    (hplainly : ∀ level, LeadingPlainly (n.text style level))
    (hchains : ∀ level d calls, 2 * (n.text style level).length ≤ d →
      (calls = true ∨ Strength.call ≤ Strength.of n ∧ (n.printed style).startsWithCall = false) →
        Chains (depth d) calls (Parts.isBareInteger n) (n.text style level) n) :
    n.Rereads style :=
  .of_operates hstrengths (fun level => (hplainly level).toLeading) (fun _ => hplainly)
    (fun _ => hchains)
    fun level d hd => .of_chain (hchains level d true hd (.inl rfl)) (hplainly level)

theorem Node.Rereads.of_weak
    (hstrengths : n.Strengths)
    (hweak : Strength.of n < Strength.postfixed)
    (hleading : ∀ level, Leading (n.text style level))
    (hoperates : ∀ level d, 2 * (n.text style level).length ≤ d →
      Operates (depth d) n.level n.reach (n.text style level) n) :
    n.Rereads style :=
  .of_operates hstrengths hleading (fun hof => by omega) (fun hof => by omega) hoperates

/-! ## Operands in their places -/

namespace Node.Rereads

variable (hn : n.Rereads style)

include hn

theorem chains_group (level : Nat) (hd : 2 * (n.text style level).length + 4 ≤ d) :
    Chains (depth d) calls false ('(' :: (n.text style level ++ [')'])) n := by
  refine .of_primary fun lineEnds tail htail => ?_
  have hinner := hn.expressions level d false (')' :: tail) (by omega)
    (.closer (by decide : (')', ")") ∈ closers) 0 tail)
    (by rw [markOf_eq (markAt_closer (by decide : (')', ")") ∈ closers) tail)]; decide)
  rw [List.cons_append, List.append_assoc]
  refine (reads_primary_group htail.noArrow hinner).imp fun o ho => ?_
  refine ⟨ho.1, fun _ => .inr (.inr ho.2), fun hform => ?_⟩
  rw [ho.2] at hform
  simp at hform

theorem leading_operandText (level least : Nat) : Leading (n.operandText style level least) := by
  rw [Node.operandText_eq]
  split
  · exact (leadingPlainly_open _).toLeading
  · exact hn.leading level

theorem plainly_operandText (level : Nat) (hleast : Strength.postfixed ≤ least) :
    LeadingPlainly (n.operandText style level least) := by
  rw [Node.operandText_eq]
  split
  · exact leadingPlainly_open _
  · exact hn.plainly (by omega) level

theorem chains_operandText
    (level : Nat)
    (hleast : Strength.postfixed ≤ least)
    (hd : 2 * (n.operandText style level least).length ≤ d)
    (hcalls : calls = true ∨ Strength.call ≤ least ∧ (n.printed style).startsWithCall = false) :
    Chains (depth d) calls (Parts.isBareInteger n) (n.operandText style level least) n := by
  rw [Node.operandText_eq] at hd ⊢
  split at hd
  case isTrue hweak =>
    rw [if_pos hweak]
    simp only [List.length_cons, List.length_append, List.length_nil] at hd
    exact (hn.chains_group level (by omega)).of_false _
  case isFalse hstrong =>
    rw [if_neg hstrong]
    refine hn.chains (by omega) level d calls hd ?_
    rcases hcalls with htrue | ⟨hcall, hstarts⟩
    · exact .inl htrue
    · exact .inr ⟨by omega, hstarts⟩

theorem operates_operandText
    (level : Nat)
    {strength reach : Nat}
    (hleast : 0 < least)
    (hd : 2 * (n.operandText style level least).length ≤ d)
    (hbare : least ≤ Strength.of n → strength ≤ n.level ∧ reach ≤ n.reach) :
    Operates (depth d) strength reach (n.operandText style level least) n := by
  rw [Node.operandText_eq] at hd ⊢
  split at hd
  case isTrue hweak =>
    rw [if_pos hweak]
    simp only [List.length_cons, List.length_append, List.length_nil] at hd
    exact .of_chain (hn.chains_group level (by omega)) (leadingPlainly_open _)
  case isFalse hstrong =>
    rw [if_neg hstrong]
    obtain ⟨hstrength, hreach⟩ := hbare (by omega)
    have hkind : n.kind ≠ .sequenceExpression := Node.kind_ne_of_strength (by omega)
    exact (hn.operates hkind level d hd).mono hstrength hreach

/-- An operand behind an operator or a bracket. -/
theorem reads_operandText
    (level : Nat) (lineEnds : Bool)
    {strength : Nat}
    (hleast : 0 < least)
    (hd : 2 * (n.operandText style level least).length < d)
    (hbare : least ≤ Strength.of n → strength ≤ n.level)
    (htail : Stops strength tail) :
    Reads ((depth d).operation strength lineEnds) (n.operandText style level least ++ tail) tail
      fun o => o.node.sameStructure n = true := by
  refine reads_operation (fun d hd => ?_) (Nat.le_refl strength) (Nat.le_refl strength) hd htail
  refine hn.operates_operandText level hleast hd fun hof => ⟨hbare hof, ?_⟩
  exact Nat.le_trans (hbare hof) n.level_le_reach

theorem readsItem
    (level : Nat)
    (hd : 2 * (n.operandText style level Strength.assignment).length < d) :
    ReadsItem (depth d) (n.operandText style level Strength.assignment) n := by
  have hopens : ∀ rest, endsName rest = true →
      Opens (n.operandText style level Strength.assignment ++ rest) :=
    (hn.leading_operandText level _).opens
  have hmarks : ∀ mark ∈ openingMarks, mark ∉ [",", ")", "]"] ∧ mark ≠ "..." := by decide
  refine ⟨fun rest hrest => (hopens rest hrest).fresh,
    fun rest hrest => (hmarks _ (hopens rest hrest).mark).1, fun rest hrest => ?_⟩
  have hspread := (hmarks _ (hopens rest hrest.ends).mark).2
  rw [if_neg (by simpa using hspread)]
  exact .map (hn.reads_operandText level false (by decide) hd (fun _ => Nat.zero_le _) hrest)

/-- The object of a member. -/
theorem chains_objectText
    (level : Nat)
    (hd : 2 * (n.objectText style level).length ≤ d)
    (hcalls : calls = true ∨ (n.printed style).startsWithCall = false) :
    Chains (depth d) calls false (n.objectText style level) n := by
  rw [Node.objectText] at hd ⊢
  split at hd
  case isTrue hinteger =>
    have hof : ¬Strength.of n < Strength.call := by
      have hkind : n.kind = .literal := by
        simp only [Parts.isBareInteger, Bool.and_eq_true, decide_eq_true_eq] at hinteger
        exact hinteger.1
      rw [Strength.of, hkind]
      exact (by decide : ¬Strength.primary < Strength.call)
    rw [if_pos hinteger]
    rw [Node.operandText_eq, if_neg hof] at hd ⊢
    simp only [List.length_cons, List.length_append, List.length_nil] at hd
    exact hn.chains_group level (by omega)
  case isFalse hinteger =>
    rw [if_neg hinteger]
    have hchain := hn.chains_operandText level (by decide : Strength.postfixed ≤ Strength.call) hd
      (hcalls.imp_right fun hstarts => ⟨Nat.le_refl _, hstarts⟩)
    rwa [Bool.not_eq_true _ |>.mp hinteger] at hchain

theorem plainly_objectText (level : Nat) : LeadingPlainly (n.objectText style level) := by
  rw [Node.objectText]
  split
  · exact leadingPlainly_open _
  · exact hn.plainly_operandText level (by decide)

/-- The operand of `new`. -/
theorem chains_calleeText (level : Nat) (hd : 2 * (n.calleeText style level).length ≤ d) :
    Chains (depth d) false (Parts.isBareInteger n) (n.calleeText style level) n := by
  rw [Node.calleeText] at hd ⊢
  split at hd
  case isTrue hcall =>
    rw [if_pos hcall]
    rw [Node.operandText_sequence] at hd ⊢
    simp only [List.length_cons, List.length_append, List.length_nil] at hd
    exact (hn.chains_group level (by omega)).of_false _
  case isFalse hcall =>
    rw [if_neg hcall]
    exact hn.chains_operandText level (by decide) hd
      (.inr ⟨by decide, Bool.not_eq_true _ |>.mp hcall⟩)

theorem leading_calleeText (level : Nat) : Leading (n.calleeText style level) := by
  rw [Node.calleeText]
  split
  · exact (leadingPlainly_open _).toLeading
  · exact hn.leading_operandText level _

end Node.Rereads

/-! ## One kind of node after the other -/

variable {span : Span}

theorem sameStructure_identifier {name : String} {span span' : Span} :
    (Node.identifier name span).sameStructure (.identifier name span') = true := by
  simp [Node.identifier, Node.sameStructure, sameSlots, Slot.sameStructure, Slot.text, Scalar.same]

theorem rereads_variable {name : String} (hname : isVariable name = true) :
    (Node.identifier name span).Rereads style := by
  have htext := isNameText_of_isVariable hname
  have hplain : name ∉ ["typeof", "void", "delete", "await", "yield"] := by
    have hall : ∀ word ∈ ["typeof", "void", "delete", "await", "yield"],
        isVariable word = false := by
      decide +kernel
    intro hmem
    exact ne_of_isVariable hname (hall name hmem) rfl
  refine .of_chains (Node.Plain.variableName hname).strengths (fun level => ?_)
    fun level d calls _ _ => ?_
  · rw [Node.text_identifier]
    exact leadingPlainly_word htext (.inr hname) hplain
  · rw [Node.text_identifier]
    refine .of_primary fun lineEnds tail htail => ?_
    refine (reads_primary_variable hname htail.toFollows).imp fun o ho => ?_
    obtain ⟨⟨span', hnode⟩, hform⟩ := ho
    refine ⟨?_, fun _ => .inl hform, fun _ => .inl rfl⟩
    rw [hnode]
    exact sameStructure_identifier

theorem rereads_integer
    {raw : String}
    (hne : raw.toList ≠ []) (hraw : raw.toList.all Char.isDigit = true) :
    (Node.mk .literal span [(.value, .scalar (.num (Numeral.value? raw) raw))]).Rereads style := by
  have htext : ∀ level, (Node.mk .literal span
      [(.value, .scalar (.num (Numeral.value? raw) raw))]).text style level = raw.toList :=
    fun level => Node.text_scalar fun _ => by simp
  have hsame : Scalar.same (.num (Numeral.value? raw) raw) (.num (Numeral.value? raw) raw) = true :=
    Scalar.same_self ⟨rfl, fun _ hx => Numeral.not_isNaN_of_value? hx⟩
  refine .of_chains (Node.Plain.integer hne hraw).strengths (fun level => ?_)
    fun level d calls _ _ => ?_
  · rw [htext]
    obtain ⟨c, digits, hdigits⟩ := List.exists_cons_of_ne_nil hne
    rw [hdigits, List.all_cons, Bool.and_eq_true] at hraw
    rw [hdigits]
    exact leadingPlainly_digit hraw.1 digits
  · rw [htext]
    have hinteger : Parts.isBareInteger (.mk .literal span
        [(.value, .scalar (.num (Numeral.value? raw) raw))]) = true := hraw
    refine .of_primary fun lineEnds tail htail => ?_
    refine (reads_primary_number hne hraw htail.ends (htail.noDot hinteger)).imp fun o ho => ?_
    obtain ⟨⟨span', hnode⟩, hform⟩ := ho
    refine .of_form ?_ hform (by decide) (by simp [Node.kind])
    rw [hnode]
    simpa [Node.sameStructure, sameSlots, Slot.sameStructure] using hsame

theorem rereads_string {value : String} (hvalue : Text.Quoted.nulBeforeDigit value.toList = false) :
    (Node.mk .literal span [(.value, .scalar (.str value))]).Rereads style := by
  refine .of_chains (Node.Plain.string hvalue).strengths (fun level => ?_)
    fun level d calls _ _ => ?_
  · rw [Node.text_string, Text.Quoted.encode, String.toList_ofList, Text.Quoted.encodeChars]
    exact leadingPlainly_quote style.quotes _
  · rw [Node.text_string]
    refine .of_primary fun lineEnds tail htail => ?_
    refine (reads_primary_string hvalue style.quotes).imp fun o ho => ?_
    obtain ⟨⟨span', hnode⟩, hform⟩ := ho
    refine .of_form ?_ hform (by decide) (by simp [Node.kind])
    rw [hnode]
    simp [Node.sameStructure, sameSlots, Slot.sameStructure, Scalar.same]

theorem rereads_constant
    {word : String} {value : Scalar}
    (hword : (word, value) ∈ constants) :
    (Node.mk .literal span [(.value, .scalar value)]).Rereads style := by
  have hfacts : value.content = word ∧ (∀ s, value ≠ .str s) ∧ value.same value = true ∧
      isNameText word.toList = true ∧ word ∈ openingWords ∧
        word ∉ ["typeof", "void", "delete", "await", "yield"] := by
    simp only [constants, List.mem_cons, Prod.mk.injEq, List.not_mem_nil, or_false] at hword
    rcases hword with ⟨rfl, rfl⟩ | ⟨rfl, rfl⟩ | ⟨rfl, rfl⟩
    all_goals exact ⟨rfl, by simp, rfl, by decide, by decide, by decide⟩
  obtain ⟨hcontent, hstring, hsame, hname, hopening, hplain⟩ := hfacts
  have htext : ∀ level, (Node.mk .literal span [(.value, .scalar value)]).text style level =
      word.toList := fun level => hcontent ▸ Node.text_scalar hstring
  refine .of_chains (Node.Plain.constant hword).strengths (fun level => ?_)
    fun level d calls _ _ => ?_
  · rw [htext]
    exact leadingPlainly_word hname (.inl hopening) hplain
  · rw [htext]
    refine .of_primary fun lineEnds tail htail => ?_
    refine (reads_primary_constant hword htail.ends).imp fun o ho => ?_
    obtain ⟨⟨span', hnode⟩, hform⟩ := ho
    refine .of_form ?_ hform (by decide) (by simp [Node.kind])
    rw [hnode]
    simpa [Node.sameStructure, sameSlots, Slot.sameStructure] using hsame

theorem rereads_this : (Node.mk .thisExpression span []).Rereads style := by
  refine .of_chains Node.Plain.this.strengths (fun level => ?_) fun level d calls _ _ => ?_
  · rw [Node.text_this]
    exact leadingPlainly_word (by decide) (.inl (by decide)) (by decide)
  · rw [Node.text_this]
    refine .of_primary fun lineEnds tail htail => ?_
    refine (reads_this htail.ends).imp fun o ho => ?_
    obtain ⟨⟨span', hnode⟩, hform⟩ := ho
    refine .of_form ?_ hform (by decide) (by simp [Node.kind])
    rw [hnode]
    rfl

/-! ### Lists in brackets -/

/-- The text of an item of a list is read back in its place. -/
structure Node.RereadsItem (style : Style) (n : Node) : Prop where
  filled : n.kind ≠ .elision
  item : ∀ level d, 2 * (n.operandText style level Strength.assignment).length < d →
    ReadsItem (depth d) (n.operandText style level Strength.assignment) n

theorem markAt_dots (rest : List Char) : markAt ("...".toList ++ rest) = some ("...", rest) := by
  rw [markAt_of_isFresh rfl]
  rfl

theorem rereadsItem_spread (hn : n.Rereads style) :
    (Node.mk .spreadElement span [(.argument, .node n)]).RereadsItem style := by
  refine ⟨by simp [Node.kind], fun level d hd => ?_⟩
  have htext : (Node.mk .spreadElement span [(.argument, .node n)]).operandText style level
      Strength.assignment = "...".toList ++ n.operandText style level Strength.assignment := by
    have hof :
        ¬ Strength.of (.mk .spreadElement span [(.argument, .node n)]) < Strength.assignment :=
      (by decide : ¬Strength.primary < Strength.assignment)
    rw [Node.operandText_eq, if_neg hof, Node.text_spread]
  rw [htext] at hd ⊢
  have hmark : ∀ rest,
      markOf ("...".toList ++ n.operandText style level Strength.assignment ++ rest) =
      "..." := by
    intro rest
    rw [List.append_assoc, markOf_eq (markAt_dots _)]
  refine ⟨fun rest _ => rfl, fun rest _ => by rw [hmark]; decide, fun rest hrest => ?_⟩
  rw [hmark, if_pos BEq.rfl, List.append_assoc]
  refine (Reads.start (skipped_of_isFresh rfl)).bind fun origin _ => ?_
  refine (Reads.mark (markAt_dots _)).bind fun _ _ => ?_
  have hlength : 2 * (n.operandText style level Strength.assignment).length < d := by
    rw [List.length_append] at hd
    omega
  refine (hn.reads_operandText level false (by decide) hlength (fun _ => Nat.zero_le _)
    hrest).bind fun o ho => ?_
  exact Reads.node fun span' => by
    simp [Node.sameStructure, sameSlots, Slot.sameStructure, ho]

theorem length_le_joined
    {text : List Char} {texts : List (List Char)}
    (htext : text ∈ texts) :
    text.length ≤ (joined texts).length := by
  cases texts with
  | nil => cases htext
  | cons first texts =>
      rw [joined, List.length_append]
      rcases List.mem_cons.mp htext with rfl | hrest
      · omega
      · have hlength : (',' :: ' ' :: text).length ≤
            (texts.flatMap fun text => ',' :: ' ' :: text).length := by
          refine List.Sublist.length_le ?_
          exact List.sublist_flatten_of_mem (List.mem_map_of_mem hrest)
        simp only [List.length_cons] at hlength
        omega

def itemEntries (style : Style) (level : Nat) (ns : List Node) : List (List Char × Node) :=
  ns.map fun n => (n.operandText style level Strength.assignment, n)

variable {ns : List Node}

@[simp] theorem map_fst_itemEntries :
    (itemEntries style level ns).map Prod.fst = itemTexts style level ns := by
  simp [itemEntries, itemTexts]

@[simp] theorem map_snd_itemEntries : (itemEntries style level ns).map Prod.snd = ns := by
  rw [itemEntries, List.map_map]
  exact List.map_id ns

theorem readsItem_of_mem
    (hns : ∀ n ∈ ns, n.RereadsItem style)
    (hd : 2 * (joined (itemTexts style level ns)).length < d) :
    ∀ entry ∈ itemEntries style level ns, ReadsItem (depth d) entry.1 entry.2 := by
  intro entry hentry
  obtain ⟨n, hn, rfl⟩ := List.mem_map.mp hentry
  have hlength : (n.operandText style level Strength.assignment).length ≤
      (joined (itemTexts style level ns)).length := length_le_joined (List.mem_map_of_mem hn)
  exact (hns n hn).item level d (by omega)

theorem rereads_array (hplain : ∀ n ∈ ns, n.Plain .argument) (hns : ∀ n ∈ ns, n.RereadsItem style) :
    (Node.mk .arrayExpression span [(.elements, .list ns)]).Rereads style := by
  have htext : ∀ level, (Node.mk .arrayExpression span [(.elements, .list ns)]).text style level =
      '[' :: (joined (itemTexts style level ns) ++ [']']) :=
    fun level => Node.text_array fun n hn => (hns n hn).filled
  refine .of_chains (Node.Plain.array hplain).strengths (fun level => ?_)
    fun level d calls hd _ => ?_
  · rw [htext]
    exact leadingPlainly_bracket _
  · rw [htext] at hd ⊢
    simp only [List.length_cons, List.length_append, List.length_nil] at hd
    refine .of_primary fun lineEnds tail htail => ?_
    have hitems :=
      readsItem_of_mem hns (by omega : 2 * (joined (itemTexts style level ns)).length < d)
    have hread := @reads_primary_array (depth d) lineEnds tail _ hitems
    rw [map_fst_itemEntries, map_snd_itemEntries] at hread
    rw [List.cons_append, List.append_assoc]
    refine hread.imp fun o ho => ?_
    obtain ⟨⟨span', found, hnode, hsame⟩, hform⟩ := ho
    refine .of_form ?_ hform (by decide) (by simp [Node.kind])
    rw [hnode]
    simpa [Node.sameStructure, sameSlots, Slot.sameStructure] using hsame

/-! ### Chains -/

theorem chainFollows_of_mark
    {c : Char} {mark : String} {part : List Char}
    (hmark : ∀ tail, markOf (c :: (part ++ tail)) = mark)
    (hc : isNameChar c = false ∧ c ≠ '\\')
    (harrow : mark ≠ "=>")
    (tail : List Char) :
    ChainFollows false (c :: part ++ tail) := by
  refine ⟨⟨?_, ?_⟩, by simp⟩
  · simp [endsName, hc]
  · rw [List.cons_append, hmark]
    exact harrow

theorem startsWithCall_member {object property : Node} {computed optional : Slot} :
    ((Node.mk .memberExpression span [(.object, .node object), (.property, .node property),
      (.computed, computed), (.optional, optional)]).printed style).startsWithCall =
        (object.printed style).startsWithCall := by
  cases object
  rfl

theorem rereads_member
    {span' : Span} {object : Node} {name : String}
    (hplain : object.Plain .operand)
    (hobject : object.Rereads style)
    (hname : isNameText name.toList = true) :
    (Node.mk .memberExpression span [(.object, .node object),
      (.property, .node (.identifier name span')), (.computed, .flag false),
        (.optional, .flag false)]).Rereads style := by
  have hmark : ∀ tail, markOf ('.' :: (name.toList ++ tail)) = "." :=
    fun tail => markOf_eq (markAt_member hname tail)
  refine .of_chains (Node.Plain.member hplain hname).strengths (fun level => ?_)
    fun level d calls hd hcalls => ?_
  · rw [Node.text_member]
    refine (hobject.plainly_objectText level).append (fun _ => rfl) fun tail _ => ?_
    rw [List.cons_append, hmark]
    decide
  · rw [Node.text_member] at hd ⊢
    rw [startsWithCall_member] at hcalls
    rw [List.length_append] at hd
    have hchain := hobject.chains_objectText level (by omega : _ ≤ d)
      (hcalls.imp_right And.right)
    refine hchain.suffix (by simp) (chainFollows_of_mark hmark (by decide) (by decide)) ?_
    intro lineEnds tail o htail ho
    refine (reads_suffix_member hname htail.ends).imp fun found hfound => ?_
    obtain ⟨longer, span₁, span₂, rfl, hform, hnode⟩ := hfound
    refine ⟨longer, rfl, ?_, fun _ => .inr (.inl hform), fun _ => .inr rfl⟩
    rw [hnode]
    have hproperty : (Node.identifier name span₂).sameStructure (.identifier name span') = true :=
      sameStructure_identifier
    exact Node.sameStructure_mk (by simp)
      (by simp [Slot.sameStructure, Slot.flag, Scalar.same, ho.same, hproperty])

theorem rereads_element
    {object index : Node}
    (hplain : object.Plain .operand)
    (hplain' : index.Plain .operand)
    (hobject : object.Rereads style)
    (hindex : index.Rereads style) :
    (Node.mk .memberExpression span [(.object, .node object), (.property, .node index),
      (.computed, .flag true), (.optional, .flag false)]).Rereads style := by
  have htext : ∀ level, (Node.mk .memberExpression span [(.object, .node object),
      (.property, .node index), (.computed, .flag true), (.optional, .flag false)]).text
        style level =
        object.objectText style level ++ '[' :: (index.text style level ++ [']']) := by
    intro level
    rw [Node.text_element, Node.operandText_sequence]
  have hmark : ∀ rest, markOf ('[' :: rest) = "[" := fun rest => markOf_eq (markAt_bracket rest)
  refine .of_chains (Node.Plain.element hplain hplain').strengths (fun level => ?_)
    fun level d calls hd hcalls => ?_
  · rw [htext]
    refine (hobject.plainly_objectText level).append (fun _ => rfl) fun tail _ => ?_
    rw [List.cons_append, hmark]
    decide
  · rw [htext] at hd ⊢
    rw [startsWithCall_member] at hcalls
    simp only [List.length_append, List.length_cons, List.length_nil] at hd
    have hchain := hobject.chains_objectText level (by omega : _ ≤ d)
      (hcalls.imp_right And.right)
    refine hchain.suffix (by simp)
      (chainFollows_of_mark (fun tail => hmark _) (by decide) (by decide)) ?_
    intro lineEnds tail o _ ho
    have hinner := hindex.expressions level d false (']' :: tail) (by omega)
      (.closer (by decide : (']', "]") ∈ closers) 0 tail)
      (by rw [markOf_eq (markAt_closer (by decide : (']', "]") ∈ closers) tail)]; decide)
    rw [List.cons_append, List.append_assoc]
    refine (reads_suffix_element hinner).imp fun found hfound => ?_
    obtain ⟨longer, span', index', rfl, hform, hsame, hnode⟩ := hfound
    refine ⟨longer, rfl, ?_, fun _ => .inr (.inl hform), fun _ => .inr rfl⟩
    rw [hnode]
    exact Node.sameStructure_mk (by simp)
      (by simp [Slot.sameStructure, Slot.flag, Scalar.same, ho.same, hsame])

theorem rereads_call
    {callee : Node} {args : List Node}
    (hplain : callee.Plain .operand)
    (hplain' : ∀ n ∈ args, n.Plain .argument)
    (hcallee : callee.Rereads style)
    (hargs : ∀ n ∈ args, n.RereadsItem style) :
    (Node.mk .callExpression span [(.callee, .node callee), (.arguments, .list args),
      (.optional, .flag false)]).Rereads style := by
  have hmark : ∀ rest, markOf ('(' :: rest) = "(" := fun rest => markOf_eq (markAt_open rest)
  refine .of_chains (Node.Plain.call hplain hplain').strengths (fun level => ?_)
    fun level d calls hd hcalls => ?_
  · rw [Node.text_call]
    refine (hcallee.plainly_operandText level (by decide)).append (fun _ => rfl) fun tail _ => ?_
    rw [List.cons_append, hmark]
    decide
  · -- What `new` takes for its operand has no call in it.
    obtain rfl : calls = true := by
      rcases hcalls with htrue | ⟨-, hfalse⟩
      · exact htrue
      · exact Bool.noConfusion hfalse
    rw [Node.text_call] at hd ⊢
    simp only [List.length_append, List.length_cons, List.length_nil] at hd
    have hchain := hcallee.chains_operandText level (by decide : Strength.postfixed ≤ Strength.call)
      (by omega : _ ≤ d) (.inl rfl)
    refine hchain.suffix (by simp) (fun tail => ?_) ?_
    · refine ⟨⟨rfl, ?_⟩, by simp⟩
      rw [List.cons_append, hmark]
      decide
    · intro lineEnds tail o _ ho
      have hitems := readsItem_of_mem hargs
        (by omega : 2 * (joined (itemTexts style level args)).length < d)
      have hread := @reads_suffix_call (depth d) lineEnds tail o _ hitems
      rw [map_fst_itemEntries, map_snd_itemEntries] at hread
      rw [List.cons_append, List.append_assoc]
      refine hread.imp fun found hfound => ?_
      obtain ⟨longer, span', args', rfl, hform, hsame, hnode⟩ := hfound
      refine ⟨longer, rfl, .of_form ?_ hform (by decide) (by simp [Node.kind])⟩
      rw [hnode]
      exact Node.sameStructure_mk (by simp)
        (by simp [Slot.sameStructure, Slot.flag, Scalar.same, ho.same, hsame])

theorem rereads_new
    {callee : Node} {args : List Node}
    (hplain : callee.Plain .operand)
    (hplain' : ∀ n ∈ args, n.Plain .argument)
    (hcallee : callee.Rereads style)
    (hargs : ∀ n ∈ args, n.RereadsItem style) :
    (Node.mk .newExpression span [(.callee, .node callee),
      (.arguments, .list args)]).Rereads style := by
  have hname : isNameText "new".toList = true := by decide
  refine .of_chains (Node.Plain.new hplain hplain').strengths (fun level => ?_)
    fun level d calls hd _ => ?_
  · rw [Node.text_new]
    have hnew : LeadingPlainly "new".toList :=
      leadingPlainly_word hname (.inl (by decide)) (by decide)
    have htext : "new ".toList ++ (callee.calleeText style level ++
        '(' :: (joined (itemTexts style level args) ++ [')'])) = "new".toList ++
          ' ' :: (callee.calleeText style level ++
            '(' :: (joined (itemTexts style level args) ++ [')'])) := rfl
    rw [htext]
    refine hnew.append (fun _ => rfl) fun tail _ => ?_
    rw [List.cons_append, List.append_assoc, markOf_space]
    exact (hcallee.leading_calleeText level).markOf_ne rfl (by decide)
  · rw [Node.text_new] at hd ⊢
    simp only [List.length_append, List.length_cons, List.length_nil] at hd
    refine .of_primary fun lineEnds tail htail => ?_
    obtain ⟨d, rfl⟩ : ∃ k, d = k + 1 := ⟨d - 1, by omega⟩
    have hitems := readsItem_of_mem hargs
      (by omega : 2 * (joined (itemTexts style level args)).length < d)
    have hopens : ∀ rest, endsName rest = true → Opens (callee.calleeText style level ++ rest) :=
      (hcallee.leading_calleeText level).opens
    have hdot : ∀ mark ∈ openingMarks, mark ≠ "." := by decide
    have hread := @reads_construct (depth d) tail _ _ _ _ (skips_construct d)
      (hcallee.chains_calleeText level (by omega))
      (fun rest hrest => (hopens rest hrest).fresh)
      (fun rest hrest => hdot _ (hopens rest hrest).mark) hitems
    rw [map_fst_itemEntries, map_snd_itemEntries] at hread
    have htext : "new ".toList ++ (callee.calleeText style level ++
        '(' :: (joined (itemTexts style level args) ++ [')'])) ++ tail = "new ".toList ++
          (callee.calleeText style level ++
            '(' :: (joined (itemTexts style level args) ++ ')' :: tail)) := by simp
    rw [htext]
    intro cur hcur
    have hword : cur.nextWord = "new" := by
      have hends : endsName (' ' :: (callee.calleeText style level ++
          '(' :: (joined (itemTexts style level args) ++ ')' :: tail))) = true := rfl
      rw [Cursor.nextWord_eq, hcur]
      exact wordOf_eq (wordAt_append hname hends)
    rw [primary_of_new (by rw [hcur]; rfl) hword]
    refine (hread.imp fun o ho => ?_) cur hcur
    obtain ⟨span', callee', args', hsame, hsame', hnode, hform⟩ := ho
    refine .of_form ?_ hform (by decide) (by simp [Node.kind])
    rw [hnode]
    exact Node.sameStructure_mk (by simp) (by simp [Slot.sameStructure, hsame, hsame'])

/-! ### Signs -/

theorem Node.Rereads.operandText_eq_cons (hn : n.Rereads style) (level least : Nat) :
    ∃ c rest,
      n.operandText style level least = c :: rest ∧ isOpeningChar c = true := by
  have hopens : Opens (n.operandText style level least ++ []) :=
    (hn.leading_operandText level _).opens [] rfl
  obtain ⟨c, rest, htext, hc⟩ := hopens.head
  exact ⟨c, rest, by simpa using htext, hc⟩

/-- What stands behind a sign: a blank where the sign would fuse with the operand. -/
theorem exists_signed
    (hn : n.Rereads style)
    (level : Nat)
    {c : Char} {operator : String}
    (hoperator : (c, operator) ∈ unarySigns) :
    ∃ d rest, (if Node.fuses style operator n then [' '] else []) ++
        n.operandText style level Strength.unary = d :: rest ∧
      d ≠ '=' ∧ (c = '+' ∨ c = '-' → d ≠ c) := by
  obtain ⟨first, rest, htext, hfirst⟩ :=
    hn.operandText_eq_cons level Strength.unary
  rw [htext]
  by_cases hfuses : Node.fuses style operator n = true
  · refine ⟨' ', first :: rest, by simp [hfuses], by decide, ?_⟩
    rintro (rfl | rfl) <;> decide
  · refine ⟨first, rest, by simp [hfuses], ?_, ?_⟩
    · rintro rfl
      exact absurd hfirst (by decide)
    · intro hsign
      rintro rfl
      refine hfuses ?_
      rw [Node.fuses_eq style level, htext]
      rcases hsign with rfl | rfl
      · obtain rfl : operator = "+" := by simpa [unarySigns] using hoperator
        rfl
      · obtain rfl : operator = "-" := by simpa [unarySigns] using hoperator
        rfl

theorem reads_argument
    (hn : n.Rereads style)
    (lineEnds : Bool)
    (hd : 2 * (n.operandText style level Strength.unary).length < d)
    (htail : Stops unaryStrength tail) :
    Reads ((depth d).operation unaryStrength lineEnds)
      (n.operandText style level Strength.unary ++ tail) tail fun o =>
        o.node.sameStructure n = true :=
  hn.reads_operandText level lineEnds (by decide) hd
    (fun hof => Nat.le_of_eq (hn.strengths.of_unary hof).1.symm)
    htail

theorem sameStructure_unary
    {span span' : Span} {operator : String} {argument argument' : Node}
    (hsame : argument'.sameStructure argument = true) :
    (Node.mk .unaryExpression span' [(.operator, .text operator),
      (.argument, .node argument')]).sameStructure (.mk .unaryExpression span
        [(.operator, .text operator), (.argument, .node argument)]) = true :=
  Node.sameStructure_mk (by simp) (by simp [Slot.sameStructure, Slot.text, Scalar.same, hsame])

theorem rereads_unary_word
    {operator : String}
    (hoperator : operator ∈ unaryWords) (hplain : n.Plain .operand) (hn : n.Rereads style) :
    (Node.mk .unaryExpression span [(.operator, .text operator),
      (.argument, .node n)]).Rereads style := by
  have hfacts : ∀ word ∈ unaryWords, word.toList.all Char.isAlpha = true ∧
      (word == "+" || word == "-") = false ∧ isNameText word.toList = true ∧
        word ∈ openingWords ∧ word ∈ unaryOperators := by decide
  obtain ⟨halpha, hsign, hname, hopening, hunary⟩ := hfacts operator hoperator
  have htext : ∀ level, (Node.mk .unaryExpression span [(.operator, .text operator),
      (.argument, .node n)]).text style level =
        operator.toList ++ ' ' :: n.operandText style level Strength.unary := by
    intro level
    rw [Node.text_unary, if_pos halpha, Node.fuses, hsign]
    rfl
  refine .of_weak (Node.Plain.unary hunary hplain).strengths
    (by decide : Strength.unary < Strength.postfixed) (fun level => ?_) fun level d hd => ?_
  · rw [htext]
    refine (leading_word hname (.inl hopening)).append (fun _ => rfl) fun tail htail => ?_
    rw [List.cons_append, markOf_space]
    exact (hn.leading_operandText level _).markOf_ne htail (by decide)
  · rw [htext] at hd ⊢
    simp only [List.length_append, List.length_cons] at hd
    refine .of_operand fun lineEnds tail htail => ?_
    have hread := reads_argument hn lineEnds
      (by omega : 2 * (n.operandText style level Strength.unary).length < d) htail
    rw [List.append_assoc, List.cons_append]
    refine (reads_operand_word (P := fun m => m.sameStructure n = true) hoperator
      (.blank (skips_operation d unaryStrength) rfl hread)).imp fun o ho => ?_
    obtain ⟨span', argument, hsame, hnode⟩ := ho
    rw [hnode]
    exact sameStructure_unary hsame

theorem rereads_unary_sign
    {c : Char} {operator : String}
    (hoperator : (c, operator) ∈ unarySigns) (hplain : n.Plain .operand) (hn : n.Rereads style) :
    (Node.mk .unaryExpression span [(.operator, .text operator),
      (.argument, .node n)]).Rereads style := by
  have hfacts : ∀ sign ∈ unarySigns, sign.2.toList.all Char.isAlpha = false ∧
      sign.2.toList = [sign.1] ∧ isOpeningChar sign.1 = true ∧ sign.2 ∈ openingMarks ∧
        sign.2 ∈ unaryOperators := by decide
  obtain ⟨halpha, hchars, hopening, hmark, hunary⟩ := hfacts _ hoperator
  simp only at halpha hchars hopening hmark hunary
  have htext : ∀ level, (Node.mk .unaryExpression span [(.operator, .text operator),
      (.argument, .node n)]).text style level =
        c :: ((if Node.fuses style operator n then [' '] else []) ++
        n.operandText style level Strength.unary) := by
    intro level
    rw [Node.text_unary, halpha, hchars]
    rfl
  refine .of_weak (Node.Plain.unary hunary hplain).strengths
    (by decide : Strength.unary < Strength.postfixed) (fun level => ?_) fun level d hd => ?_
  · rw [htext]
    obtain ⟨next, rest, hrest, hequal, hself⟩ := exists_signed hn level hoperator
    rw [hrest]
    have hsign := fun tail => sign_facts _ hoperator next (rest ++ tail) hequal hself
    refine leading_of_sign (fun tail => (hsign tail).1) (fun tail => ?_)
      ⟨hopening, (hsign []).2.2.1, (hsign []).2.2.2.1⟩ hmark
    rw [List.cons_append, markOf, markAt_of_isFresh (hsign tail).1, (hsign tail).2.1]
    rfl
  · rw [htext] at hd ⊢
    simp only [List.length_append, List.length_cons] at hd
    refine .of_operand fun lineEnds tail htail => ?_
    have hread : Reads ((depth d).operation unaryStrength lineEnds)
        ((if Node.fuses style operator n then [' '] else []) ++
          n.operandText style level Strength.unary ++ tail) tail fun o =>
            o.node.sameStructure n = true := by
      have hargument := reads_argument hn lineEnds
        (by omega : 2 * (n.operandText style level Strength.unary).length < d) htail
      split
      · exact .blank (skips_operation d unaryStrength) rfl hargument
      · exact hargument
    obtain ⟨next, rest, hrest, hequal, hself⟩ := exists_signed hn level hoperator
    rw [hrest] at hread ⊢
    refine (reads_operand_sign (P := fun m => m.sameStructure n = true) hoperator hequal hself
      hread).imp fun o ho => ?_
    obtain ⟨span', argument, hsame, hnode⟩ := ho
    rw [hnode]
    exact sameStructure_unary hsame

theorem isFresh_update
    {operator : String} {text : List Char}
    (hoperator : operator ∈ ["++", "--"]) (htext : text.head? ≠ some '>') :
    isFresh (operator.toList ++ text) = true := by
  simp only [List.mem_cons, List.not_mem_nil, or_false] at hoperator
  rcases hoperator with rfl | rfl
  · rfl
  · cases text with
    | nil => rfl
    | cons c rest =>
        have hmarkup : '>' ≠ c := by
          rintro rfl
          exact htext rfl
        simp [isFresh, startsWith, List.isPrefixOf, hmarkup, Text.isBlank, Text.inRanges,
          Text.blankRanges]

theorem Node.Rereads.head_operandText
    (hn : n.Rereads style)
    (level least : Nat) (tail : List Char) :
    (n.operandText style level least ++ tail).head? ≠ some '>' := by
  obtain ⟨c, rest, htext, hc⟩ := hn.operandText_eq_cons level least
  rw [htext]
  rintro ⟨⟩
  exact absurd hc (by decide)

theorem sameStructure_update
    {span span' : Span} {operator : String} {argument argument' : Node} {prefixed : Bool}
    (hsame : argument'.sameStructure argument = true) :
    (Node.mk .updateExpression span' [(.operator, .text operator), (.argument, .node argument'),
      (.prefixed, .flag prefixed)]).sameStructure (.mk .updateExpression span
        [(.operator, .text operator), (.argument, .node argument), (.prefixed, .flag prefixed)]) =
          true :=
  Node.sameStructure_mk (by simp)
    (by simp [Slot.sameStructure, Slot.text, Slot.flag, Scalar.same, hsame])

theorem rereads_update_before
    {operator : String}
    (hoperator : operator ∈ ["++", "--"]) (hplain : n.Plain .operand) (hn : n.Rereads style) :
    (Node.mk .updateExpression span [(.operator, .text operator), (.argument, .node n),
      (.prefixed, .flag true)]).Rereads style := by
  have htext : ∀ level, (Node.mk .updateExpression span [(.operator, .text operator),
      (.argument, .node n), (.prefixed, .flag true)]).text style level =
        operator.toList ++ n.operandText style level Strength.unary :=
    fun level => Node.text_update
  have hfresh : ∀ level tail,
      isFresh (operator.toList ++ (n.operandText style level Strength.unary ++ tail)) = true := by
    intro level tail
    exact isFresh_update hoperator (hn.head_operandText level Strength.unary tail)
  refine .of_weak (Node.Plain.update hoperator hplain).strengths
    (by decide : Strength.unary < Strength.postfixed) (fun level => ?_) fun level d hd => ?_
  · rw [htext]
    have hmark := fun tail => markOf_eq
      (markAt_update hoperator (n.operandText style level Strength.unary ++ tail))
    have hfresh' := hfresh level
    simp only [List.mem_cons, List.not_mem_nil, or_false] at hoperator
    rcases hoperator with rfl | rfl
    all_goals exact leading_of_sign hfresh' hmark (by decide) (by decide)
  · rw [htext] at hd ⊢
    have hlength : 0 < operator.toList.length := by
      have hall : ∀ mark ∈ ["++", "--"], 0 < mark.toList.length := by decide
      exact hall operator hoperator
    rw [List.length_append] at hd
    refine .of_operand fun lineEnds tail htail => ?_
    have hread := reads_argument hn lineEnds
      (by omega : 2 * (n.operandText style level Strength.unary).length < d) htail
    rw [List.append_assoc]
    refine (reads_operand_update (P := fun m => m.sameStructure n = true) hoperator
      (hfresh level tail) hread).imp fun o ho => ?_
    obtain ⟨span', argument, hsame, hnode⟩ := ho
    rw [hnode]
    exact sameStructure_update hsame

theorem rereads_update_behind
    {operator : String}
    (hoperator : operator ∈ ["++", "--"]) (hplain : n.Plain .operand) (hn : n.Rereads style) :
    (Node.mk .updateExpression span [(.operator, .text operator), (.argument, .node n),
      (.prefixed, .flag false)]).Rereads style := by
  have htext : ∀ level, (Node.mk .updateExpression span [(.operator, .text operator),
      (.argument, .node n), (.prefixed, .flag false)]).text style level =
        n.operandText style level Strength.postfixed ++ operator.toList :=
    fun level => Node.text_update
  have hmark := fun tail => markOf_eq (markAt_update hoperator tail)
  have hfacts : ∀ mark ∈ ["++", "--"], mark ≠ ":" ∧ mark ≠ "=>" ∧ mark.toList ≠ [] ∧
      mark.toList.head? ≠ some '.' ∧ endsName mark.toList = true := by decide
  obtain ⟨hcolon, harrow, hne, hdot, hends⟩ := hfacts operator hoperator
  have hends' : ∀ tail, endsName (operator.toList ++ tail) = true := by
    intro tail
    simp only [List.mem_cons, List.not_mem_nil, or_false] at hoperator
    rcases hoperator with rfl | rfl <;> rfl
  refine .of_chains (Node.Plain.update hoperator hplain).strengths (fun level => ?_)
    fun level d calls hd hcalls => ?_
  · rw [htext]
    refine (hn.plainly_operandText level (Nat.le_refl _)).append hends' fun tail _ => ?_
    rw [hmark]
    exact hcolon
  · -- What `new` takes for its operand is no update.
    obtain rfl : calls = true := by
      rcases hcalls with htrue | ⟨hcall, -⟩
      · exact htrue
      · exact absurd hcall (by decide : ¬Strength.call ≤ Strength.postfixed)
    rw [htext] at hd ⊢
    rw [List.length_append] at hd
    have hchain := hn.chains_operandText level (Nat.le_refl _) (by omega : _ ≤ d) (.inl rfl)
    refine hchain.suffix hne (fun tail => ⟨⟨hends' tail, ?_⟩, fun _ => ?_⟩) ?_
    · rw [hmark]
      exact harrow
    · rwa [List.head?_append_of_ne_nil _ hne]
    · intro lineEnds tail o _ ho
      refine (reads_suffix_update hoperator).imp fun found hfound => ?_
      obtain ⟨longer, span', rfl, hform, hnode⟩ := hfound
      refine ⟨longer, rfl, .of_form ?_ hform (by decide) (by simp [Node.kind])⟩
      rw [hnode]
      exact sameStructure_update ho.same

/-! ### Operators -/

theorem rereads_binary
    {kind : Kind} {operator : String} {left right : Node}
    (hoperator : operator ∈ binaryOperators)
    (hkind : kind = binaryKind operator)
    (hplain : left.Plain .operand)
    (hplain' : right.Plain .operand)
    (hleft : left.Rereads style)
    (hright : right.Rereads style) :
    (Node.mk kind span [(.operator, .text operator), (.left, .node left),
      (.right, .node right)]).Rereads style := by
  have hstrength := binaryStrength?_eq operator hoperator
  have hkind' : kind = .binaryExpression ∨ kind = .logicalExpression := by
    rw [hkind, binaryKind]
    split
    · exact .inr rfl
    · exact .inl rfl
  have hwhole : (Node.mk kind span [(.operator, .text operator), (.left, .node left),
      (.right, .node right)]).level = strengthOf operator ∧
      (Node.mk kind span [(.operator, .text operator), (.left, .node left),
        (.right, .node right)]).reach = rightStrength operator (strengthOf operator) ∧
      Strength.of (.mk kind span [(.operator, .text operator), (.left, .node left),
        (.right, .node right)]) = Strength.binary operator := by
    rcases hkind' with rfl | rfl
    all_goals simp [Node.level, Node.reach, Strength.of, Node.text?, Node.scalar?, Node.slot?,
      Slot.text, hstrength]
  obtain ⟨hlevel, hreach, hof⟩ := hwhole
  refine .of_weak (Node.Plain.binary hoperator hkind hplain hplain').strengths ?_ (fun level => ?_)
    fun level d hd => ?_
  · rw [hof]
    exact Nat.lt_succ_of_lt (binary_bounds operator hoperator).2.2.2.2.2
  · rw [Node.text_binary hkind']
    refine (hleft.leading_operandText level _).append (fun _ => rfl) fun tail _ => ?_
    rw [List.cons_append, List.append_assoc]
    have hnot : operator ∉ [":"] := by
      have hall : ∀ mark ∈ binaryOperators, mark ∉ [":"] := by decide
      exact hall operator hoperator
    simpa using markOf_binary_notMem hoperator _ hnot (by decide)
  · rw [Node.text_binary hkind'] at hd ⊢
    rw [hlevel, hreach]
    simp only [List.length_append, List.length_cons] at hd
    have hoperates := hleft.operates_operandText level (Node.leftLeast_pos hoperator left)
      (by omega : _ ≤ d)
      (hleft.strengths.left hoperator)
    have hread : ∀ lineEnds tail, Stops (rightStrength operator (strengthOf operator)) tail →
        Reads ((depth d).operation (rightStrength operator (strengthOf operator)) lineEnds)
          (' ' :: (right.operandText style level (Node.rightLeast operator right) ++ tail)) tail
            fun o => o.node.sameStructure right = true := by
      intro lineEnds tail htail
      refine .blank (skips_operation d _) rfl ?_
      exact hright.reads_operandText level lineEnds (Node.rightLeast_pos hoperator right) (by omega)
        (hright.strengths.right hoperator) htail
    refine hoperates.binary hoperator hstrength (Nat.le_refl _) (Nat.lt_succ_self _) hread ?_
    intro span' left' right' hsame hsame'
    rw [hkind, binaryKind]
    exact Node.sameStructure_mk (by simp)
      (by simp [Slot.sameStructure, Slot.text, Scalar.same, hsame, hsame'])

theorem rereads_assignment
    {operator : String} {left right : Node}
    (hoperator : operator ∈ assignmentMarks)
    (hplain : left.Plain .operand)
    (htarget : left.isTarget = true)
    (hplain' : right.Plain .operand)
    (hleft : left.Rereads style)
    (hright : right.Rereads style) :
    (Node.mk .assignmentExpression span [(.operator, .text operator), (.left, .node left),
      (.right, .node right)]).Rereads style := by
  have hkind : left.kind = .identifier ∨ left.kind = .memberExpression := by
    simpa [Node.isTarget] using htarget
  have hmark : ∀ rest, markOf (' ' :: (operator.toList ++ ' ' :: rest)) = operator := by
    intro rest
    rw [markOf_space, markOf_eq (markAt_spaced (assignmentMarks_subset operator hoperator) rest)]
  refine .of_weak (Node.Plain.assignment hoperator hplain htarget hplain').strengths
    (by decide : Strength.assignment < Strength.postfixed) (fun level => ?_) fun level d hd => ?_
  · rw [Node.text_assignment]
    refine (hleft.leading_operandText level _).append (fun _ => rfl) fun tail _ => ?_
    rw [List.cons_append, List.append_assoc, List.cons_append, hmark]
    have hall : ∀ mark ∈ assignmentMarks, mark ≠ ":" := by decide
    exact hall operator hoperator
  · rw [Node.text_assignment] at hd ⊢
    simp only [List.length_append, List.length_cons] at hd
    refine .of_operand fun lineEnds tail htail => ?_
    have hchain := hleft.chains_operandText level (by decide : Strength.postfixed ≤ Strength.call)
      (by omega : _ ≤ d) (.inl rfl)
    have hplainly :=
      hleft.plainly_operandText level (by decide : Strength.postfixed ≤ Strength.call)
    have hopens := hplainly.plainly (' ' :: (operator.toList ++
      ' ' :: (right.operandText style level Strength.assignment ++ tail))) rfl
    have hread := hright.reads_operandText level lineEnds (by decide : 0 < Strength.assignment)
      (by omega : _ < d) (fun _ => Nat.zero_le _) htail.zero
    have htext : left.operandText style level Strength.call ++ ' ' :: (operator.toList ++
        ' ' :: right.operandText style level Strength.assignment) ++ tail =
          left.operandText style level Strength.call ++ ' ' :: (operator.toList ++
            ' ' :: (right.operandText style level Strength.assignment ++ tail)) := by simp
    rw [htext]
    refine (reads_operand_assignment (P := fun m => m.sameStructure right = true) hchain hkind
      hoperator hopens (.blank (skips_operation d 0) rfl hread)).imp fun o ho => ?_
    obtain ⟨span', left', right', hsame, hsame', hnode⟩ := ho
    rw [hnode]
    exact Node.sameStructure_mk (by simp)
      (by simp [Slot.sameStructure, Slot.text, Scalar.same, hsame, hsame'])

theorem rereads_conditional
    {test consequent alternate : Node}
    (hplain : test.Plain .operand)
    (hplain' : consequent.Plain .operand)
    (hplain'' : alternate.Plain .operand)
    (htest : test.Rereads style)
    (hconsequent : consequent.Rereads style)
    (halternate : alternate.Rereads style) :
    (Node.mk .conditionalExpression span [(.test, .node test), (.consequent, .node consequent),
      (.alternate, .node alternate)]).Rereads style := by
  refine .of_weak (Node.Plain.conditional hplain hplain' hplain'').strengths
    (by decide : Strength.conditional < Strength.postfixed) (fun level => ?_) fun level d hd => ?_
  · rw [Node.text_conditional]
    refine (htest.leading_operandText level _).append (fun _ => rfl) fun tail _ => ?_
    have hmark : ∀ rest, markOf ('?' :: ' ' :: rest) = "?" :=
      fun rest => markOf_eq (markAt_spaced (by decide : "?" ∈ punctuators) rest)
    rw [List.cons_append, markOf_space, List.cons_append, List.cons_append, hmark]
    decide
  · rw [Node.text_conditional] at hd ⊢
    simp only [List.length_append, List.length_cons] at hd
    have hoperates := htest.operates_operandText level (by decide) (by omega : _ ≤ d)
      htest.strengths.of_test
    have hthen : ∀ tail, Stops 0 tail → Reads ((depth d).expression false)
        (' ' :: (consequent.operandText style level Strength.assignment ++ tail)) tail
          fun o => o.node.sameStructure consequent = true := by
      intro tail htail
      refine .blank (skips_operation d _) rfl ?_
      exact hconsequent.reads_operandText level false (by decide) (by omega)
        (fun _ => Nat.zero_le _) htail
    have helse : ∀ lineEnds tail, Stops conditionalStrength tail →
        Reads ((depth d).operation conditionalStrength lineEnds)
          (' ' :: (alternate.operandText style level Strength.assignment ++ tail)) tail
            fun o => o.node.sameStructure alternate = true := by
      intro lineEnds tail htail
      refine .blank (skips_operation d _) rfl ?_
      exact halternate.reads_operandText level lineEnds (by decide) (by omega)
        (fun _ => halternate.strengths.conditionalStrength_le) htail
    refine hoperates.conditional (Nat.le_refl _) (Nat.lt_succ_self _) hthen helse ?_
    intro span' test' consequent' alternate' hsame hsame' hsame''
    exact Node.sameStructure_mk (by simp) (by simp [Slot.sameStructure, hsame, hsame', hsame''])

theorem rereads_sequence
    (hlength : 2 ≤ ns.length)
    (hplain : ∀ n ∈ ns, n.Plain .operand)
    (hns : ∀ n ∈ ns, n.Rereads style) :
    (Node.mk .sequenceExpression span [(.expressions, .list ns)]).Rereads style := by
  have hweak : ¬Strength.postfixed ≤ Strength.of (.mk .sequenceExpression span
      [(.expressions, .list ns)]) := (by decide : ¬Strength.postfixed ≤ Strength.sequence)
  have hstrengths := (Node.Plain.sequence hlength hplain : Node.Plain .operand
    (.mk .sequenceExpression span [(.expressions, .list ns)])).strengths
  obtain ⟨first, second, rest, rfl⟩ : ∃ first second rest, ns = first :: second :: rest := by
    match ns, hlength with
    | first :: second :: rest, _ => exact ⟨first, second, rest, rfl⟩
  refine ⟨hstrengths, fun level => ?_, fun hof => absurd hof hweak, fun hof => absurd hof hweak,
    fun hkind => absurd rfl hkind, fun level d lineEnds tail hd htail hcomma => ?_⟩
  · rw [Node.text_sequence]
    have hmark : ∀ rest, markOf (',' :: rest) = "," :=
      fun rest => markOf_eq (markAt_closer (by decide : (',', ",") ∈ closers) rest)
    refine ((hns first (by simp)).leading_operandText level Strength.assignment).append
      (fun _ => rfl) fun tail _ => ?_
    rw [List.map_cons, List.flatMap_cons, List.cons_append, List.cons_append, hmark]
    decide
  · rw [Node.text_sequence] at hd ⊢
    have hentries : ∀ entry ∈ itemEntries style level (first :: second :: rest),
        ReadsExpression (depth d) lineEnds entry.1 entry.2 := by
      intro entry hentry
      obtain ⟨n, hn, rfl⟩ := List.mem_map.mp hentry
      have hle : (n.operandText style level Strength.assignment).length ≤
          (joined (itemTexts style level (first :: second :: rest))).length :=
        length_le_joined (List.mem_map_of_mem hn)
      intro tail htail
      exact (hns n hn).reads_operandText level lineEnds (by decide) (by omega)
        (fun _ => Nat.zero_le _) htail
    have hread : Reads ((depth d).expressions lineEnds)
        (joined ((itemEntries style level (first :: second :: rest)).map Prod.fst) ++ tail) tail
        fun found => ∃ span' parts,
          found = .mk .sequenceExpression span' [(.expressions, .list parts)] ∧
            sameSequence parts
              ((itemEntries style level (first :: second :: rest)).map Prod.snd) = true :=
      reads_expressions_sequence (skips_operation d 0) htail hcomma hentries
    rw [map_fst_itemEntries, map_snd_itemEntries] at hread
    refine hread.imp fun found hfound => ?_
    obtain ⟨span', parts, rfl, hsame⟩ := hfound
    exact Node.sameStructure_mk (by simp) (by simp [Slot.sameStructure, hsame])

theorem Node.Plain.kind_ne_elision {n : Node} (hn : n.Plain .operand) : n.kind ≠ .elision := by
  cases hn with
  | binary _ hkind =>
      rw [Node.kind, hkind, binaryKind]
      split <;> decide
  | _ => simp [Node.kind, Node.identifier]

/-- What a plain tree in its place is read back as. -/
def Node.RereadsAs (style : Style) : Role → Node → Prop
  | .operand, n => n.Rereads style
  | .argument, n => n.RereadsItem style

/-- The text of every plain tree is read back as a tree of the same structure. -/
theorem Node.Plain.rereadsAs
    {role : Role} {n : Node}
    (hn : n.Plain role)
    (style : Style) :
    n.RereadsAs style role := by
  induction hn with
  | variableName hname => exact rereads_variable hname
  | integer hne hraw => exact rereads_integer hne hraw
  | string hvalue => exact rereads_string hvalue
  | constant hword => exact rereads_constant hword
  | this => exact rereads_this
  | array hns ih => exact rereads_array hns ih
  | member hobject hname ih => exact rereads_member hobject ih hname
  | element hobject hindex ih ih' => exact rereads_element hobject hindex ih ih'
  | call hcallee hargs ih ih' => exact rereads_call hcallee hargs ih ih'
  | new hcallee hargs ih ih' => exact rereads_new hcallee hargs ih ih'
  | unary hoperator hargument ih =>
      rcases List.mem_append.mp hoperator with hword | hsign
      · exact rereads_unary_word hword hargument ih
      · obtain ⟨⟨c, operator⟩, hmem, rfl⟩ := List.mem_map.mp hsign
        exact rereads_unary_sign hmem hargument ih
  | @update span operator argument prefixed hoperator hargument ih =>
      cases prefixed
      · exact rereads_update_behind hoperator hargument ih
      · exact rereads_update_before hoperator hargument ih
  | binary hoperator hkind hleft hright ih ih' =>
      exact rereads_binary hoperator hkind hleft hright ih ih'
  | assignment hoperator hleft htarget hright ih ih' =>
      exact rereads_assignment hoperator hleft htarget hright ih ih'
  | conditional htest hconsequent halternate ih ih' ih'' =>
      exact rereads_conditional htest hconsequent halternate ih ih' ih''
  | sequence hlength hns ih => exact rereads_sequence hlength hns ih
  | value hn ih => exact ⟨hn.kind_ne_elision, fun level d hd => Node.Rereads.readsItem ih level hd⟩
  | spread hn ih => exact rereadsItem_spread ih

end Graft
