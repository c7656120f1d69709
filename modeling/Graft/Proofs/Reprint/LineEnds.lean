import Graft.Proofs.Reprint.BlockOrObject

/-!
# Where a line ends a statement

A statement that no semicolon ends may end with its line.  Whether it does is seen at the start of
the next line: a brace or a word ends it, unless the word starts like the operators `in` and
`instanceof`, and so does the closing brace of a block.
-/

namespace Graft

open Grammar

variable {style : Style} {level need : Nat} {tail : List Char} {n : Node}

namespace Grammar

/-! ## Automatic semicolons -/

theorem isPlainBlank_of_mem_indentation (style : Style) (level : Nat) :
    ∀ c ∈ style.indentationChars level, Text.isPlainBlank c = true := by
  intro c hc
  unfold Style.indentationChars at hc
  split at hc
  all_goals
    rw [(List.mem_replicate.mp hc).2]
    rfl

theorem readGap_blanks
    {blanks text : List Char} {all crossed : Bool}
    (hblanks : ∀ c ∈ blanks, Text.isPlainBlank c = true) :
    readGap all .blanks crossed (blanks ++ text) = readGap all .blanks crossed text := by
  induction blanks with
  | nil => rfl
  | cons c blanks ih =>
      rw [List.forall_mem_cons] at hblanks
      rw [List.cons_append, readGap.eq_def]
      simp only [hblanks.1, if_true, ih hblanks.2]

/-- The character starts neither a blank nor a comment. -/
structure Unskipped (c : Char) : Prop where
  noBlank : Text.isBlank c = false
  noPlainBlank : Text.isPlainBlank c = false
  noSlash : c ≠ '/'

variable {c : Char} {rest : List Char}

theorem endsBefore_gap (hc : Unskipped c) (afterOperand : Bool) (fuel : Nat) :
    endsBefore afterOperand (fuel + 1) (gap style level ++ c :: rest) =
      startsAfresh (c :: rest) := by
  have hgap : readGap true .blanks false (style.indentationChars level ++ c :: rest) =
      (.passed, c :: rest) := by
    rw [readGap_blanks (isPlainBlank_of_mem_indentation style level), readGap.eq_def]
    simp only [hc.noPlainBlank, hc.noSlash, Bool.false_eq_true, if_false]
  have hbreak : Text.isLineEnd '\n' = true := rfl
  simp only [gap, List.cons_append, endsBefore, hgap, hbreak, Char.reduceEq, if_false, if_true]

theorem takeWhile_gap (hc : Unskipped c) :
    (gap style level ++ c :: rest).takeWhile Text.isBlank = gap style level := by
  rw [List.takeWhile_append_of_pos (isBlank_of_mem_gap style level),
    List.takeWhile_cons_of_neg (by simp [hc.noBlank]), List.append_nil]

theorem commentLength?_eq_none (hc : c ≠ '/') : commentLength? (c :: rest) = none := by
  unfold commentLength?
  split <;> simp_all

/-- At the end of a line, the start of the next one decides. -/
theorem automaticEnd?_gap
    {cur : Cursor}
    (hc : Unskipped c) (hcur : cur.rest = gap style level ++ c :: rest)
    (afterOperand : Bool) :
    cur.automaticEnd? afterOperand = if startsAfresh (c :: rest) then some cur else none := by
  have hnext : (cur.advance (gap style level).length).rest = c :: rest := by
    rw [Cursor.rest_advance, hcur, List.drop_left]
  rw [Cursor.automaticEnd?, Cursor.findEnd, hcur, endsBefore_gap hc, takeWhile_gap hc]
  simp only [hnext, commentLength?_eq_none hc.noSlash]

theorem reads_semicolon_gap (hc : Unskipped c) (hafresh : startsAfresh (c :: rest) = true) :
    Reads (semicolon true) (gap style level ++ c :: rest) (gap style level ++ c :: rest)
      fun _ => True := by
  refine .get fun cur hcur => ?_
  simp only [automaticEnd?_gap hc hcur, hafresh, if_true]
  exact .of_set hcur

/-- A semicolon on the next line still ends the statement. -/
theorem reads_semicolon_mark :
    Reads (semicolon true) (gap style level ++ ';' :: rest) rest fun _ => True := by
  refine .get fun cur hcur => ?_
  have hafresh : startsAfresh (';' :: rest) = false := rfl
  simp only [automaticEnd?_gap ⟨by decide, by decide, by decide⟩ hcur, hafresh, Bool.false_eq_true,
    if_false]
  refine Reads.mark ?_
  rw [markAt_blanks (isBlank_of_mem_gap style level)]
  exact markAt_closer (by decide : (';', ";") ∈ closers) rest

theorem fails_semicolon_gap
    (hc : Unskipped c)
    (hafresh : startsAfresh (c :: rest) = false)
    (hmark : markOf (c :: rest) ≠ ";") :
    Fails (semicolon true) (gap style level ++ c :: rest) := by
  refine Ends.fails (.get fun cur hcur => ?_)
  simp only [automaticEnd?_gap hc hcur, hafresh, Bool.false_eq_true, if_false]
  refine .of_fails (fails_mark ?_)
  rwa [markOf_blanks (isBlank_of_mem_gap style level)]

/-- On the same line a statement ends in front of a brace only. -/
theorem fails_semicolon_space
    (hc : Unskipped c)
    (hline : Text.isLineEnd c = false)
    (hbrace : c ≠ '\x7d')
    (hmark : markOf (c :: rest) ≠ ";") :
    Fails (semicolon true) (' ' :: c :: rest) := by
  refine Ends.fails (.get fun cur hcur => ?_)
  have hend : cur.automaticEnd? true = none := by
    have hspace : Text.isPlainBlank ' ' = true ∧ Text.isLineEnd ' ' = false ∧
        Text.isBlank ' ' = true := ⟨rfl, rfl, rfl⟩
    simp [Cursor.automaticEnd?, Cursor.findEnd, endsBefore, hcur, hspace, hc.noSlash, hbrace, hline,
      hc.noPlainBlank, hc.noBlank, commentLength?_eq_none hc.noSlash]
  simp only [hend]
  refine .of_fails (fails_mark ?_)
  rwa [markOf_space]

theorem reads_semicolon_nil : Reads (semicolon true) [] [] fun _ => True := by
  refine .get fun cur hcur => ?_
  have hend : cur.automaticEnd? true = some cur := by
    simp [Cursor.automaticEnd?, Cursor.findEnd, endsBefore, hcur]
  simp only [hend]
  exact .of_set hcur

/-! ## Names at the start of a line -/

theorem unskipped_of_isNameChar (hc : isNameChar c = true) : Unskipped c := by
  have hslash := ne_of_isNameChar hc (by decide : nameStops.contains '/' = true)
  simp only [isNameChar, Bool.and_eq_true, decide_eq_true_eq, Bool.not_eq_true'] at hc
  have hspace : c ≠ ' ' := by
    rintro rfl
    exact Bool.noConfusion hc.1.2
  have hcontrol : ¬ c ≤ '\r' := by
    intro hle
    have hval : c.toNat ≤ 13 := hle
    omega
  exact ⟨hc.1.2, by simp [Text.isPlainBlank, hspace, hcontrol], hslash⟩

theorem startsAfresh_of_isNameChar (hc : isNameChar c = true) :
    startsAfresh (c :: rest) = !startsRelation (c :: rest) := by
  have hne : ∀ d, nameStops.contains d = true → c ≠ d := fun d hd => ne_of_isNameChar hc hd
  have hcontinuing : c ∉ continuingChars := by
    have hall : continuingChars.all (nameStops.contains ·) = true := by decide
    exact fun hmem => hne c (List.all_eq_true.mp hall c hmem) rfl
  simp [startsAfresh, hcontinuing, hne '.' (by decide), hne '+' (by decide), hne '-' (by decide),
    hne '!' (by decide)]

/-- A statement ends in front of a line that starts with a name. -/
theorem reads_semicolon_name
    {name : List Char}
    (hname : isNameText name = true) (hrelation : startsRelation (name ++ rest) = false) :
    Reads (semicolon true) (gap style level ++ (name ++ rest)) (gap style level ++ (name ++ rest))
      fun _ => True := by
  cases name with
  | nil => cases hname
  | cons c name =>
      simp only [isNameText, Bool.and_eq_true] at hname
      rw [List.cons_append] at hrelation ⊢
      refine reads_semicolon_gap (unskipped_of_isNameChar hname.1.2) ?_
      rw [startsAfresh_of_isNameChar hname.1.2, hrelation]
      rfl

theorem StatementStart.reads_semicolon
    {text : List Char}
    (htext : StatementStart text)
    (hopen : markOf (text ++ tail) ≠ "(")
    (hrelation : startsRelation (text ++ tail) = false) :
    ∃ rest, Reads (semicolon true) (gap style level ++ (text ++ tail)) rest fun _ => True := by
  cases htext with
  | word hword =>
      rw [List.append_assoc] at hrelation ⊢
      exact ⟨_, reads_semicolon_name (isNameText_of_start hword) hrelation⟩
  | @mark c mark rest hc =>
      simp only [statementMarks, List.mem_cons, Prod.mk.injEq, List.not_mem_nil, or_false] at hc
      rcases hc with ⟨rfl, rfl⟩ | ⟨rfl, rfl⟩ | ⟨rfl, rfl⟩
      · exact ⟨_, reads_semicolon_mark⟩
      · exact absurd (markOf_eq (markAt_open _)) hopen
      · exact ⟨_, reads_semicolon_gap ⟨by decide, by decide, by decide⟩ rfl⟩

theorem isNameChar_of_isAlpha (hc : c.isAlpha = true) : isNameChar c = true := by
  have hrange : 65 ≤ c.toNat ∧ c.toNat ≤ 122 := by
    have hletter : (decide ('A'.val ≤ c.val ∧ c.val ≤ 'Z'.val) ||
        ('a'.val ≤ c.val && c.val ≤ 'z'.val)) = true := hc
    simp only [Bool.or_eq_true, Bool.and_eq_true, decide_eq_true_eq,
      UInt32.le_iff_toNat_le] at hletter
    rcases hletter with hc | hc
    · exact ⟨hc.1, Nat.le_trans hc.2 (by decide)⟩
    · exact ⟨Nat.le_trans (by decide) hc.1, hc.2⟩
  have hblank : Text.isBlank c = false := by
    simp only [Text.isBlank, Text.inRanges, Text.blankRanges, List.any_cons, List.any_nil,
      Bool.or_false, Bool.or_eq_false_iff, Bool.and_eq_false_iff, decide_eq_false_iff_not]
    omega
  have hstop : c ∉ nameStops := by
    have hall : nameStops.all (fun d => !d.isAlpha) = true := by decide
    intro hmem
    simpa [hc] using List.all_eq_true.mp hall c hmem
  have hcontrol : 31 < c.toNat := by omega
  simp [isNameChar, hblank, hcontrol, hstop]

/-- The text starts with the word, and no letter follows. -/
def startsLetters (text : List Char) (word : String) : Bool :=
  startsWith text word && (text.drop word.toList.length).head?.all fun c => !c.isAlpha

theorem startsRelation_eq (text : List Char) :
    startsRelation text = (startsLetters text "in" || startsLetters text "instanceof") := by
  have hlengths : "in".toList.length = 2 ∧ "instanceof".toList.length = 10 := ⟨rfl, rfl⟩
  unfold startsRelation startsLetters
  rw [hlengths.1, hlengths.2]
  dsimp only
  cases (text.drop 2).head? <;> cases (text.drop 10).head? <;> rfl

section

variable {name after : List Char} (hends : endsName after = true)

include hends

/-- A word stands at the start of a name if it stands at the start of what the name starts. -/
theorem prefix_append_endsName {word : List Char} (hword : ∀ c ∈ word, isNameChar c = true) :
    word <+: name ++ after ↔ word <+: name := by
  refine ⟨fun hstarts => ?_, fun hstarts => hstarts.trans (List.prefix_append name after)⟩
  rcases List.prefix_or_prefix_of_prefix hstarts (List.prefix_append name after) with hname | hname
  · exact hname
  · obtain ⟨more, rfl⟩ := hname
    rw [List.prefix_append_right_inj] at hstarts
    cases more with
    | nil => simp
    | cons c more =>
        obtain ⟨rest, rfl⟩ := hstarts
        exact absurd rfl (not_head_of_endsName hends (hword c (by simp)))

theorem startsLetters_append {word : String} (hword : word.toList.all isNameChar = true) :
    startsLetters (name ++ after) word = startsLetters name word := by
  have hstarts : startsWith (name ++ after) word = startsWith name word := by
    rw [Bool.eq_iff_iff, startsWith, startsWith, List.isPrefixOf_iff_prefix,
      List.isPrefixOf_iff_prefix]
    exact prefix_append_endsName hends (List.all_eq_true.mp hword)
  rw [startsLetters, startsLetters, hstarts]
  by_cases hname : startsWith name word = true
  · obtain ⟨more, rfl⟩ := List.isPrefixOf_iff_prefix.mp hname
    rw [List.append_assoc, List.drop_left, List.drop_left]
    cases more with
    | cons c more => rfl
    | nil =>
        cases after with
        | nil => rfl
        | cons c after =>
            have halpha : c.isAlpha = false := by
              rw [Bool.eq_false_iff]
              intro halpha
              exact not_head_of_endsName hends (isNameChar_of_isAlpha halpha) rfl
            simp [halpha]
  · simp [hname]

theorem startsRelation_append : startsRelation (name ++ after) = startsRelation name := by
  rw [startsRelation_eq, startsRelation_eq, startsLetters_append hends (by decide +kernel),
    startsLetters_append hends (by decide +kernel)]

end

theorem exists_of_startsRelation {text : List Char} (htext : startsRelation text = true) :
    ∃ rest, text = 'i' :: rest := by
  have hall : ∀ word ∈ ["in", "instanceof"], startsLetters text word = true →
      ∃ rest, text = 'i' :: rest := by
    intro word hword hstarts
    rw [startsLetters, Bool.and_eq_true] at hstarts
    obtain ⟨rest, rfl⟩ := List.isPrefixOf_iff_prefix.mp hstarts.1
    simp only [List.mem_cons, List.not_mem_nil, or_false] at hword
    rcases hword with rfl | rfl
    all_goals exact ⟨_, rfl⟩
  rw [startsRelation_eq, Bool.or_eq_true] at htext
  rcases htext with htext | htext
  · exact hall "in" (by decide) htext
  · exact hall "instanceof" (by decide) htext

end Grammar

/-! ## Statements at the start of a line -/

theorem Node.StartsWith.unique
    {name name' : String}
    (hname : n.StartsWith name) (hname' : n.StartsWith name') :
    name = name' := by
  induction hname with
  | name =>
      cases hname'
      rfl
  | member _ ih =>
      cases hname' with
      | member hobject => exact ih hobject
  | call _ ih =>
      cases hname' with
      | call hcallee => exact ih hcallee
  | expression _ ih =>
      cases hname' with
      | expression he => exact ih he
  | label =>
      cases hname'
      rfl

theorem Node.StartsWith.startsLikeRelation_iff {name : String} (hname : n.StartsWith name) :
    n.StartsLikeRelation ↔ startsRelation name.toList = true := by
  refine ⟨?_, fun hrelation => ⟨name, hname, hrelation⟩⟩
  rintro ⟨name', hname', hrelation⟩
  rwa [hname.unique hname']

theorem Node.Simple.exists_startsWith
    {e : Node}
    (he : e.Simple) (hcall : e.kind = .callExpression)
    (style : Style) (level : Nat) :
    ∃ (name : String) (rest : List Char), e.StartsWith name ∧
      e.text style level = name.toList ++ rest ∧ rest ≠ [] ∧ endsName rest = true := by
  obtain ⟨callee, args, hcallee, -, hstarts, htext⟩ := he.exists_callText hcall style level
  obtain ⟨name, rest, -, hname, hcalleeText, hrest⟩ := hcallee.exists_text style level
  refine ⟨name, rest ++ '(' :: (joined (itemTexts style level args) ++ [')']), hstarts name hname,
    ?_, by simp, ?_⟩
  · rw [htext, hcalleeText, List.append_assoc]
  · rcases hrest with rfl | ⟨member, more, -, rfl⟩ <;> rfl

theorem Node.Nested.startsRelation_iff
    (hn : n.Nested) (hopen : markOf (n.statementText style level ++ tail) ≠ "(") :
    startsRelation (n.statementText style level ++ tail) = true ↔ n.StartsLikeRelation := by
  have hclause : ∀ word ∈ clauseWords, startsRelation word.toList = false := by decide +kernel
  have hnone (hrelation : startsRelation (n.statementText style level ++ tail) = false)
      (hstart : ∀ name, ¬ n.StartsWith name) :
      startsRelation (n.statementText style level ++ tail) = true ↔ n.StartsLikeRelation := by
    rw [hrelation]
    exact ⟨nofun, fun hlike => absurd hlike.choose_spec.1 (hstart _)⟩
  cases hn with
  | empty => exact hnone rfl nofun
  | @call span e he hcall =>
      obtain ⟨text, htext, hform⟩ := Node.exists_statementText_expression style level span e
      rw [htext] at hopen ⊢
      rcases hform with rfl | rfl
      · obtain ⟨name, rest, hname, htext, hne, hends⟩ := he.exists_startsWith hcall style level
        rw [htext, List.append_assoc, List.append_assoc,
          startsRelation_append (endsName_append hne hends _),
          (Node.StartsWith.expression hname).startsLikeRelation_iff]
      · exact absurd (markOf_eq (markAt_open _)) hopen
  | block =>
      refine hnone ?_ nofun
      rw [Node.statementText_block]
      rfl
  | ifThen =>
      refine hnone ?_ nofun
      rw [Node.statementText_ifThen, List.append_assoc, startsRelation_append rfl]
      exact hclause _ (by decide)
  | ifElse =>
      refine hnone ?_ nofun
      rw [Node.statementText_ifElse, List.append_assoc, startsRelation_append rfl]
      exact hclause _ (by decide)
  | whileLoop =>
      refine hnone ?_ nofun
      rw [Node.statementText_while, List.append_assoc, startsRelation_append rfl]
      exact hclause _ (by decide)
  | @doLoop _ _ body =>
      refine hnone ?_ nofun
      rw [Node.statementText_do, List.append_assoc, List.append_assoc,
        startsRelation_append (body.endsName_bodyText _)]
      exact hclause _ (by decide)
  | forLoop hinit =>
      refine hnone ?_ nofun
      rw [Node.statementText_for fun n hn => (hinit n hn).kind_ne, List.append_assoc,
        startsRelation_append rfl]
      exact hclause _ (by decide)
  | labeled =>
      rw [Node.statementText_labeled, List.append_assoc, startsRelation_append rfl,
        Node.StartsWith.label.startsLikeRelation_iff]

/-- A call that is put in parentheses starts like a function or a class. -/
theorem Node.Nested.not_startsLikeRelation
    (hn : n.Nested) (hopen : markOf (n.statementText style level ++ tail) = "(") :
    ¬ n.StartsLikeRelation := by
  rintro ⟨name, hname, hrelation⟩
  cases hn with
  | @call span e he hcall =>
      cases hname with
      | expression hname =>
          obtain ⟨name', rest, hname', htext, -⟩ := he.exists_startsWith hcall style level
          obtain rfl := hname.unique hname'
          obtain ⟨more, hmore⟩ := exists_of_startsRelation hrelation
          have hplain : Text.opensOtherwise (e.text style level) = false := by
            rw [htext, hmore]
            rfl
          rw [Node.statementText_expression, hplain, if_neg Bool.false_ne_true, List.append_assoc,
            he.markOf_text] at hopen
          exact absurd hopen (by decide)
  | labeled hlabel =>
      rw [Node.statementText_labeled, List.append_assoc, markOf,
        markAt_of_isNameText (isNameText_of_isVariable hlabel)] at hopen
      exact absurd hopen (by decide)
  | _ => cases hname

/-! ## Whether a statement ends -/

/-- No statement without a semicolon ends in front of the text, which starts with a word. -/
structure Grammar.Refuses (tail : List Char) : Prop where
  mark : markOf tail = ""
  fails : Fails (semicolon true) tail

/-- Behind a value, a statement ends in front of the text or with a call that the text starts
with. -/
def Grammar.Accepts (tail : List Char) : Prop :=
  ∃ middle rest, LeavesBehind (2 * tail.length) middle tail ∧ markOf middle ≠ "," ∧
    Reads (semicolon true) middle rest fun _ => True

/-- A word on the same line does not end a statement. -/
theorem refuses_word {word : String} (hword : word ∈ ["else", "while"]) :
    Refuses ([' '] ++ (word.toList ++ tail)) := by
  have hall : ∀ word ∈ ["else", "while"], isNameText word.toList = true := by decide
  have hname := hall word hword
  have hmark : ∀ rest, markOf (word.toList ++ rest) = "" := by
    intro rest
    rw [markOf, markAt_of_isNameText hname]
    rfl
  refine ⟨by rw [markOf_blanks isBlank_of_mem_space, hmark], ?_⟩
  have hsemicolon : markOf (word.toList ++ tail) ≠ ";" := by
    rw [hmark]
    decide
  simp only [List.mem_cons, List.not_mem_nil, or_false] at hword
  rcases hword with rfl | rfl
  all_goals
    exact fails_semicolon_space (unskipped_of_isNameChar (by decide)) (by decide) (by decide)
      hsemicolon

/-- A word that no statement starts with, on a new line. -/
theorem accepts_word
    {word : String}
    (hword : word ∈ ["else", "while"]) (hends : endsName tail = true) :
    Accepts (gap style level ++ (word.toList ++ tail)) := by
  have hall : ∀ word ∈ ["else", "while"], isNameText word.toList = true ∧
      binaryStrength? word = none ∧ startsRelation word.toList = false := by decide +kernel
  obtain ⟨hname, hstrength, hrelation⟩ := hall word hword
  have hgap := isBlank_of_mem_gap style level
  have hmark : markOf (gap style level ++ (word.toList ++ tail)) = "" := by
    rw [markOf_blanks hgap, markOf, markAt_of_isNameText hname]
    rfl
  refine ⟨_, _, .of_stops (Closes.stops (.of_word (by simp [gap]) hgap hname hstrength hends) ?_),
    ?_, reads_semicolon_name hname ?_⟩
  · rw [hmark]
    decide
  · rw [hmark]
    decide
  · rw [startsRelation_append hends, hrelation]

theorem accepts_nil : Accepts [] := by
  refine ⟨[], [], .of_stops ?_, by decide, reads_semicolon_nil⟩
  exact ⟨by constructor <;> decide, by decide, by decide, by decide, nofun, by decide⟩

theorem accepts_linesText_nil : Accepts (linesText style level [] ++ tail) := by
  have hmark : markOf (linesText style level [] ++ tail) = "\x7d" :=
    markOf_eq (markAt_linesText_nil tail)
  have htext : linesText style level [] ++ tail = gap style level ++ '\x7d' :: tail := by
    simp [linesText]
  refine ⟨_, _, .of_stops ((closes_linesText_nil tail).stops ?_), ?_,
    htext ▸ reads_semicolon_gap ⟨by decide, by decide, by decide⟩ rfl⟩
  · rw [hmark]
    decide
  · rw [hmark]
    decide

section

variable {m : Node} (hm : m.Nested)

include hm

/-- A line that starts like an operator does not end the statement of the line before. -/
theorem Node.Nested.refuses (hlike : m.StartsLikeRelation) :
    Refuses (gap style level ++ (m.statementText style level ++ tail)) := by
  have hopen : markOf (m.statementText style level ++ tail) ≠ "(" :=
    fun hopen => hm.not_startsLikeRelation hopen hlike
  have hrelation := (hm.startsRelation_iff hopen).mpr hlike
  obtain ⟨rest, htext⟩ := exists_of_startsRelation hrelation
  rw [htext] at hrelation ⊢
  have hmark : markOf ('i' :: rest) = "" := by
    rw [markOf, markAt_of_isNameChar (by decide)]
    rfl
  refine ⟨by rw [markOf_blanks (isBlank_of_mem_gap style level), hmark], ?_⟩
  refine fails_semicolon_gap (unskipped_of_isNameChar (by decide)) ?_ (by rw [hmark]; decide)
  rw [startsAfresh_of_isNameChar (by decide), hrelation]
  rfl

theorem Node.Nested.accepts (hlike : ¬ m.StartsLikeRelation) :
    Accepts (gap style level ++ (m.statementText style level ++ tail)) := by
  have hgap := isBlank_of_mem_gap style level
  obtain ⟨middle, hleaves, hmiddle⟩ := hm.exists_leavesBehind (by simp [gap]) hgap style level tail
    (by simp only [List.length_append]; omega :
      _ ≤ 2 * (gap style level ++ (m.statementText style level ++ tail)).length)
  have hall : ∀ mark ∈ ["", ";", "(", "\x7b"], mark ≠ "," := by decide
  have hsemicolon : ∀ rest, markAt (';' :: rest) = some (";", rest) :=
    fun rest => markAt_closer (by decide : (';', ";") ∈ closers) rest
  rcases hmiddle with rfl | ⟨rest, rfl⟩
  · have hopen : markOf (m.statementText style level ++ tail) ≠ "(" := by
      have hnone := hleaves.stops.noSuffix
      rw [markOf_blanks hgap] at hnone
      intro hopen
      rw [hopen] at hnone
      exact hnone (by decide)
    have hrelation : startsRelation (m.statementText style level ++ tail) = false := by
      rw [Bool.eq_false_iff]
      exact fun hrelation => hlike ((hm.startsRelation_iff hopen).mp hrelation)
    obtain ⟨rest, hread⟩ := (hm.starts style level).reads_semicolon hopen hrelation
    refine ⟨_, rest, hleaves, ?_, hread⟩
    rw [markOf_blanks hgap]
    exact hall _ ((hm.starts style level).mark_mem tail)
  · refine ⟨_, rest, hleaves, ?_, reads_semicolon true⟩
    rw [markOf_eq (hsemicolon rest)]
    decide

end

/-- What stands behind a statement, in front of the lines of others: the statement is complete
there, and it ends unless the next line starts like an operator. -/
structure Grammar.LinesAhead (ns : List Node) (text : List Char) : Prop where
  closes : Closes text
  noElse : wordOf text ≠ "else"
  refuses : ¬ LineEndsBefore ns → Refuses text
  accepts : LineEndsBefore ns → Accepts text

theorem Grammar.LinesAhead.of_nil
    {text : List Char}
    (hcloses : Closes text) (helse : wordOf text ≠ "else") (haccepts : Accepts text) :
    LinesAhead [] text :=
  ⟨hcloses, helse, fun hnot => absurd (by simp [LineEndsBefore]) hnot, fun _ => haccepts⟩

theorem Node.Nested.linesAhead {m : Node} (hm : m.Nested) (ms : List Node) :
    LinesAhead (m :: ms) (gap style level ++ (m.statementText style level ++ tail)) := by
  have hgap := isBlank_of_mem_gap style level
  have hstart := hm.starts style level
  refine ⟨hstart.closes (by simp [gap]) hgap tail, ?_, fun hnot => hm.refuses ?_,
    fun hends => hm.accepts (hends m rfl)⟩
  · rw [wordOf_blanks hgap]
    exact (hstart.word_facts tail).2
  · simpa [LineEndsBefore] using hnot

/-- Behind a statement of a block stands the next one, or the closing brace. -/
theorem linesAhead_linesText
    {ns : List Node}
    (hns : ∀ n ∈ ns, n.Nested)
    (level : Nat) (tail : List Char) :
    LinesAhead ns (linesText style level ns ++ tail) := by
  cases ns with
  | nil =>
      refine .of_nil (closes_linesText_nil tail) ?_ accepts_linesText_nil
      rw [wordOf, wordAt_linesText_nil]
      decide
  | cons m ms =>
      simp only [linesText_cons, List.append_assoc]
      exact (hns m List.mem_cons_self).linesAhead ms

end Graft
