import Graft.Proofs.DanglingElse
import Graft.Proofs.Reprint.Parameters

/-!
# Blocks and objects

A brace at the start of a statement opens a block, although an object may start with one too: where
a label stands behind it, what it holds is first tried as an object.  A label reads like a key, and
an `if` or a `while` like a method, but only few statements get through as members of an object, and
only alone in their block.
-/

namespace Graft

open Grammar

/-! ## Blocks that read like objects -/

/-- An `if` or a `while` that reads like a method of that name. -/
inductive Node.MethodLike : Node → Prop
  | ifThen {span : Span} {test consequent : Node} (htest : test.ParametersLike)
      (hblock : consequent.kind = .blockStatement) :
      MethodLike (.mk .ifStatement span [(.test, .node test), (.consequent, .node consequent),
        (.alternate, .absent)])
  | whileLoop {span : Span} {test body : Node} (htest : test.ParametersLike)
      (hblock : body.kind = .blockStatement) :
      MethodLike (.mk .whileStatement span [(.test, .node test), (.body, .node body)])

/-- A block that reads like an object where a value is expected: an empty one, or one with nothing
in it but what reads like a method. -/
inductive Node.ObjectLike : Node → Prop
  | empty {span : Span} : ObjectLike (.mk .blockStatement span [(.body, .list [])])
  | method {span : Span} {n : Node} (hn : n.MethodLike) :
      ObjectLike (.mk .blockStatement span [(.body, .list [n])])

/-- The statement starts with a name like `in1`, which is taken for an operator at the start of a
line. -/
def Node.StartsLikeRelation (n : Node) : Prop :=
  ∃ name, n.StartsWith name ∧ startsRelation name.toList = true

/-- A statement ends with its line in front of these, unless the next line starts like an
operator. -/
def LineEndsBefore (ns : List Node) : Prop := ∀ m ∈ ns.head?, ¬ m.StartsLikeRelation

/-- Some block among the nested statements is taken for an object: its only statement has a label,
which reads like a key, in front of a block that reads like an object.  It is taken for one only
where a statement may end behind it; `free` says so of the place behind the whole statement. -/
inductive Node.LosesBlock : Prop → Node → Prop
  | here {free : Prop} {span span' : Span} {label body : Node} (hfree : free)
      (hbody : body.ObjectLike) :
      LosesBlock free (.mk .blockStatement span [(.body, .list
        [.mk .labeledStatement span' [(.label, .node label), (.body, .node body)]])])
  | line {free : Prop} {span : Span} {front rest : List Node} {n : Node}
      (hn : LosesBlock (LineEndsBefore rest) n) :
      LosesBlock free (.mk .blockStatement span [(.body, .list (front ++ n :: rest))])
  | last {free : Prop} {n c : Node} {field : Field} (hfield : n.kind.lastField? = some field)
      (hc : n.child? field = some c) (hloses : LosesBlock free c) : LosesBlock free n
  | consequent {free : Prop} {n c : Node} (hkind : n.kind = .ifStatement)
      (hnone : n.child? .alternate = none) (hc : n.child? .consequent = some c)
      (hloses : LosesBlock free c) : LosesBlock free n
  /-- In front of `else`, which stands on the line of the brace. -/
  | beforeElse {free : Prop} {n c a : Node} (hkind : n.kind = .ifStatement)
      (ha : n.child? .alternate = some a) (hc : n.child? .consequent = some c)
      (hloses : LosesBlock (c.kind ≠ .blockStatement) c) : LosesBlock free n
  | doBody {free : Prop} {n c : Node} (hkind : n.kind = .doWhileStatement)
      (hc : n.child? .body = some c)
      (hloses : LosesBlock (c.kind ≠ .blockStatement) c) : LosesBlock free n

/-- Some statement among these, each on a line of its own, loses a block. -/
def LinesLoseBlock (ns : List Node) : Prop :=
  ∃ front n rest, ns = front ++ n :: rest ∧ n.LosesBlock (LineEndsBefore rest)

theorem Node.LosesBlock.mono
    {free free' : Prop} {n : Node}
    (hn : n.LosesBlock free) (himp : free → free') :
    n.LosesBlock free' := by
  induction hn generalizing free' with
  | here hfree hbody => exact .here (himp hfree) hbody
  | line hn _ => exact .line hn
  | last hfield hc _ ih => exact .last hfield hc (ih himp)
  | consequent hkind hnone hc _ ih => exact .consequent hkind hnone hc (ih himp)
  | beforeElse hkind ha hc hloses _ => exact .beforeElse hkind ha hc hloses
  | doBody hkind hc hloses _ => exact .doBody hkind hc hloses

variable {style : Style} {level d need : Nat} {span : Span} {tail : List Char} {n : Node}
  {Q : List Char → Prop}

/-! ## Simple expressions -/

namespace Node.Simple

variable (hn : n.Simple)

include hn

theorem rereads (style : Style) : n.Rereads style := hn.plain.rereadsAs style

theorem chains (hd : 2 * (n.text style level).length ≤ d) :
    Chains (depth d) true (Parts.isBareInteger n) (n.text style level) n := by
  have hstrength : Strength.postfixed ≤ Strength.of n :=
    Nat.le_trans (by decide : Strength.postfixed ≤ Strength.call) hn.strength
  exact (hn.rereads style).chains hstrength level d true hd (.inl rfl)

/-- As a pattern, a simple expression is read to its end, if it is one. -/
theorem ends_pattern
    (hd : 2 * (n.text style level).length < d)
    (htail : ChainFollows (Parts.isBareInteger n) tail)
    (hstops : suffixStops true tail) :
    Ends (depth d).pattern (n.text style level ++ tail) (· = tail) := by
  obtain ⟨d, rfl⟩ : ∃ k, d = k + 1 := ⟨d - 1, by omega⟩
  have hopens := ((hn.rereads style).leading level).opens tail htail.ends
  refine .pattern hopens.fresh ?_ ((hn.chains (by omega)).ends_target htail hstops)
  rw [hn.markOf_text]
  decide

theorem reads_expression
    (lineEnds : Bool)
    (hd : 2 * (n.text style level).length < d) (htail : Stops 0 tail) :
    Reads ((depth d).expression lineEnds) (n.text style level ++ tail) tail fun o =>
      o.node.sameStructure n = true := by
  rw [← hn.operandText_eq_text (by decide : Strength.assignment ≤ Strength.call)] at hd ⊢
  exact (hn.rereads style).reads_operandText level lineEnds (by decide) hd
    (fun _ => Nat.zero_le _) htail

end Node.Simple

/-! ## As a member, and as the value of a member -/

/-- Read as a member of an object or of a pattern, the text ends where `Q` holds. -/
structure Grammar.MemberEnds (need : Nat) (Q : List Char → Prop) (text tail : List Char) :
    Prop where
  object : ∀ d, 2 * text.length + need ≤ d → Ends (objectMember (depth d)) (text ++ tail) Q
  pattern : ∀ d, 2 * text.length + need ≤ d → Ends (objectPatternMember (depth d)) (text ++ tail) Q

/-- The same as the value of such a member. -/
structure Grammar.ValueEnds (need : Nat) (Q : List Char → Prop) (text tail : List Char) :
    Prop where
  expression : ∀ d, 2 * text.length + need < d →
    Ends ((depth d).expression false) (text ++ tail) Q
  pattern : ∀ d, 2 * text.length + need < d → Ends (depth d).pattern (text ++ tail) Q

namespace Grammar

theorem MemberEnds.of_mark
    {c : Char} {mark : String}
    (hc : (c, mark) ∈ statementMarks)
    (rest : List Char) :
    MemberEnds need Q (c :: rest) tail :=
  ⟨fun _ _ => .of_fails (fails_objectMember_mark hc),
    fun _ _ => .of_fails (fails_objectPatternMember_mark hc)⟩

theorem MemberEnds.of_key
    {word : String} {after : List Char}
    (hQ : MemberEnd Q)
    (hname : isNameText word.toList = true)
    (hword : word ∉ modifierWords)
    (hne : after ≠ [])
    (hends : endsName after = true)
    (hkey : ∀ d, 2 * (word.toList ++ after).length + need ≤ d →
      KeyEnds (depth d) word (after ++ tail) Q) :
    MemberEnds need Q (word.toList ++ after) tail := by
  have hends' := endsName_append hne hends tail
  refine ⟨fun d hd => ?_, fun d hd => ?_⟩
  all_goals rw [List.append_assoc]
  · exact (hkey d hd).ends_objectMember hname hends' hword
  · exact (hkey d hd).ends_objectPatternMember hname hends' hQ

theorem stranded_of_mark
    {text after : List Char} {mark : String}
    (hmark : markAt text = some (mark, after)) (hne : mark ∉ ["\x7d", ",", "="]) :
    Stranded text := by
  rwa [Stranded, markOf_eq hmark]

/-- A word without a colon behind it. -/
theorem KeyEnds.of_ne
    {g : Productions} {word : String} {after : List Char}
    (hcolon : markOf after ≠ ":")
    (hmethod : markOf after = "(" → Ends (parameters g) after fun rest => Ends g.block rest Q)
    (hshort : isReserved word = false → Q after) :
    KeyEnds g word after Q := by
  have hno : ∀ rest, markAt after ≠ some (":", rest) := fun rest hrest => hcolon (markOf_eq hrest)
  exact ⟨hmethod, fun rest hrest => absurd hrest (hno rest),
    fun rest hrest => absurd hrest (hno rest), fun hfree _ => hshort hfree⟩

theorem fails_block_semicolon {g : Productions} (rest : List Char) :
    Fails g.block (';' :: rest) := by
  refine fails_block rfl ?_
  rw [markOf_eq (markAt_closer (by decide : (';', ";") ∈ closers) rest)]
  decide

/-- Words that start a statement are no operands. -/
theorem ValueEnds.of_clause
    {word : String}
    (hword : word ∈ clauseWords)
    {after : List Char}
    (hne : after ≠ []) (hends : endsName after = true) :
    ValueEnds need Q (word.toList ++ after) tail := by
  obtain ⟨hname, -, hplain, -⟩ := clauseWords_facts word hword
  have hwords : word ∈ clauseWords ++ unaryWords := List.mem_append_left _ hword
  have hmark : ∀ rest, markOf (word.toList ++ rest) = "" := by
    intro rest
    rw [markOf, markAt_of_isNameText hname]
    rfl
  have hends' := endsName_append hne hends tail
  refine ⟨fun d hd => .of_fails ?_, fun d hd => .of_fails ?_⟩
  all_goals
    obtain ⟨d, rfl⟩ : ∃ k, d = k + 1 := ⟨d - 1, by omega⟩
    rw [List.append_assoc]
  · refine fails_operation ⟨isFresh_of_isNameText hname, ?_, ?_⟩ (fails_primary_word hwords hends')
    · rwa [wordOf_eq (wordAt_append hname hends')]
    · rw [hmark]
      decide
  · refine Ends.fails (.pattern (isFresh_of_isNameText hname) ?_
      (.of_fails (fails_primary_word hwords hends').bind))
    rw [hmark]
    decide

theorem fails_pattern_semicolon (d : Nat) : Fails (depth d).pattern (';' :: tail) := by
  cases d with
  | zero => exact Ends.fails .of_unexpected
  | succ d =>
      refine Ends.fails (.pattern rfl ?_ (.of_fails fails_primary_semicolon.bind))
      rw [markOf_eq (markAt_closer (by decide : (';', ";") ∈ closers) tail)]
      decide

theorem ValueEnds.semicolon : ValueEnds need Q [';'] tail := by
  have hmark : ∀ rest, markOf (';' :: rest) = ";" :=
    fun rest => markOf_eq (markAt_closer (by decide : (';', ";") ∈ closers) rest)
  refine ⟨fun d hd => .of_fails ?_, fun d _ => .of_fails (fails_pattern_semicolon d)⟩
  obtain ⟨d, rfl⟩ : ∃ k, d = k + 1 := ⟨d - 1, by omega⟩
  refine fails_operation ⟨rfl, ?_, ?_⟩ fails_primary_semicolon
  · rw [wordOf, List.singleton_append, wordAt_of_stop rfl (by decide) (by decide)]
    decide
  · rw [List.singleton_append, hmark]
    decide

/-- Braces that are read as an object or a pattern end with the text they hold, and they are so
only if `through` holds. -/
structure BracesEnd (through : Prop) (inner : List Char) : Prop where
  object : ∀ d tail, 2 * inner.length ≤ d →
    Ends (object (depth d)) ('\x7b' :: (inner ++ tail)) fun rest => through ∧ rest = tail
  pattern : ∀ d tail, 2 * inner.length ≤ d →
    Ends (objectPattern (depth d)) ('\x7b' :: (inner ++ tail)) fun rest => through ∧ rest = tail

section

variable {through : Prop} {inner : List Char} (hinner : BracesEnd through inner)
  (hbehind : through → EndsBehind need Q tail)

include hinner hbehind

theorem BracesEnd.operation (lineEnds : Bool) (hd : 2 * inner.length + need + 2 ≤ d) :
    Ends ((depth d).operation 0 lineEnds) ('\x7b' :: (inner ++ tail)) Q := by
  obtain ⟨d, rfl⟩ : ∃ k, d = k + 2 := ⟨d - 2, by omega⟩
  exact ends_operation_brace (by omega) (hinner.object _ tail (by omega))
    (hinner.pattern _ tail (by omega)) hbehind

theorem BracesEnd.valueEnds : ValueEnds need Q ('\x7b' :: inner) tail := by
  refine ⟨fun d hd => ?_, fun d hd => ?_⟩
  all_goals
    rw [List.length_cons] at hd
    rw [List.cons_append]
  · exact hinner.operation hbehind false (by omega)
  · obtain ⟨d, rfl⟩ : ∃ k, d = k + 1 := ⟨d - 1, by omega⟩
    refine (ends_pattern_brace (hinner.pattern _ tail (by omega))).imp ?_
    rintro _ ⟨hthrough, rfl⟩
    exact (hbehind hthrough).here

end

end Grammar

/-! ### One kind of statement after the other -/

theorem modifierWords_isVariable {name : String} (hname : isVariable name = true) :
    name ∉ modifierWords := by
  intro hmem
  have hall : ∀ word ∈ modifierWords, isVariable word = false := by decide +kernel
  exact Bool.noConfusion (hname.symm.trans (hall name hmem))

section

variable (hQ : MemberEnd Q) (level : Nat)

include hQ

theorem memberEnds_call {e : Node} (he : e.Simple) (hcall : e.kind = .callExpression) :
    MemberEnds need Q ((Node.mk .expressionStatement span
      [(.expression, .node e)]).statementText style level) tail := by
  obtain ⟨text, htext, hform⟩ := Node.exists_statementText_expression style level span e
  rw [htext]
  rcases hform with rfl | rfl
  · obtain ⟨callee, args, hcallee, hargs, -, htext⟩ := he.exists_callText hcall style level
    obtain ⟨name, rest, hname, -, hcalleeText, hrest⟩ := hcallee.exists_text style level
    rw [htext, hcalleeText]
    simp only [List.append_assoc, List.cons_append, List.nil_append]
    refine .of_key hQ (isNameText_of_isVariable hname) (modifierWords_isVariable hname) (by simp) ?_
      fun d hd => ?_
    · rcases hrest with rfl | ⟨member, more, -, rfl⟩ <;> rfl
    · simp only [List.length_append, List.length_cons, List.length_nil] at hd
      rcases hrest with rfl | ⟨member, more, hmember, rfl⟩
      · simp only [List.nil_append, List.cons_append, List.append_assoc]
        have hmark := markAt_open (joined (itemTexts style level args) ++ ')' :: ';' :: tail)
        refine .of_ne (by rw [markOf_eq hmark]; decide) (fun _ => ?_)
          fun _ => hQ.stranded _ (stranded_of_mark hmark (by decide))
        exact ((decides_parameters_arguments (fun n hn => .value (hargs n hn).plain)
          (by omega)).weaken nofun).ends_of_output fun _ => .of_fails (fails_block_semicolon tail)
      · simp only [List.cons_append, List.append_assoc, List.nil_append]
        have hmark := markAt_member hmember
          (more ++ '(' :: (joined (itemTexts style level args) ++ ')' :: ';' :: tail))
        refine .of_ne (by rw [markOf_eq hmark]; decide) (fun hopen => ?_)
          fun _ => hQ.stranded _ (stranded_of_mark hmark (by decide))
        rw [markOf_eq hmark] at hopen
        exact absurd hopen (by decide)
  · exact .of_mark (by decide : ('(', "(") ∈ statementMarks) _

theorem valueEnds_call {e : Node} (he : e.Simple) :
    ValueEnds need Q ((Node.mk .expressionStatement span
      [(.expression, .node e)]).statementText style level) tail := by
  obtain ⟨text, htext, hform⟩ := Node.exists_statementText_expression style level span e
  have hstops : Stops 0 (';' :: tail) := .closer (by decide : (';', ";") ∈ closers) 0 tail
  have hsuffix : suffixStops true (';' :: tail) := suffixStops_of_notMem hstops.noSuffix true
  have hstranded : ∀ rest, rest = ';' :: tail → Q rest := by
    rintro _ rfl
    exact hQ.stranded _
      (stranded_of_mark (markAt_closer (by decide : (';', ";") ∈ closers) tail) (by decide))
  rw [htext]
  rcases hform with rfl | rfl
  · refine ⟨fun d hd => ?_, fun d hd => ?_⟩
    all_goals
      rw [List.length_append] at hd
      rw [List.append_assoc]
    · exact (Ends.of_reads (he.reads_expression false (by omega) hstops)).imp hstranded
    · exact (he.ends_pattern (by omega) (hstops.chainFollows _) hsuffix).imp hstranded
  · refine ⟨fun d hd => ?_, fun d hd => ?_⟩
    all_goals
      simp only [List.length_append, List.length_cons, List.length_nil] at hd
      obtain ⟨d, rfl⟩ : ∃ k, d = k + 1 := ⟨d - 1, by omega⟩
      have hchain : Chains (depth d) true false ('(' :: (e.text style level ++ [')'])) e :=
        (he.rereads style).chains_group level (by omega)
      rw [List.append_assoc]
    · have hoperates : Operates (depth d) 0 0 ('(' :: (e.text style level ++ [')'])) e :=
        .of_chain hchain (leadingPlainly_open _)
      exact (Ends.of_reads (hoperates.reads (Nat.le_refl 0) (Nat.le_refl 0) hstops)).imp hstranded
    · refine .pattern rfl ?_ ?_
      · rw [List.cons_append, markOf_eq (markAt_open _)]
        decide
      · exact (hchain.ends_target (hstops.chainFollows _) hsuffix).imp hstranded

theorem memberEnds_labeled
    {span' : Span} {name : String} {body : Node}
    (hname : isVariable name = true)
    (hbody : ValueEnds need Q (body.statementText style level) tail) :
    MemberEnds need Q ((Node.mk .labeledStatement span [(.label, .node (.identifier name span')),
      (.body, .node body)]).statementText style level) tail := by
  rw [Node.statementText_labeled]
  refine .of_key hQ (isNameText_of_isVariable hname) (modifierWords_isVariable hname) (by simp) rfl
    fun d hd => ?_
  simp only [List.length_append, List.length_cons] at hd
  have hmark : markAt (':' :: ' ' :: body.statementText style level ++ tail) =
      some (":", ' ' :: (body.statementText style level ++ tail)) :=
    markAt_closer (by decide : (':', ":") ∈ closers) _
  refine ⟨fun hopen => ?_, fun rest hrest => ?_, fun rest hrest => ?_, fun _ hne => ?_⟩
  · rw [markOf_eq hmark] at hopen
    exact absurd hopen (by decide)
  · rw [hmark] at hrest
    cases hrest
    exact .blanks (skips_operation d 0) isBlank_of_mem_space (hbody.expression d (by omega))
  · rw [hmark] at hrest
    cases hrest
    exact .blanks (skips_pattern d) isBlank_of_mem_space (hbody.pattern d (by omega))
  · exact absurd (markOf_eq hmark) hne

theorem valueEnds_labeled
    {span' : Span} {name : String} {body : Node}
    (hname : isVariable name = true) :
    ValueEnds need Q ((Node.mk .labeledStatement span [(.label, .node (.identifier name span')),
      (.body, .node body)]).statementText style level) tail := by
  have hlabel : (Node.identifier name span').Simple := .reference (.variableName hname)
  have htext : (Node.identifier name span').text style level = name.toList := Node.text_identifier
  have hcloser : (':', ":") ∈ closers := by decide
  have hstops : ∀ rest, Stops 0 (':' :: rest) := fun rest => .closer hcloser 0 rest
  have hstranded : ∀ rest, Q (':' :: rest) := fun rest =>
    hQ.stranded _ (stranded_of_mark (markAt_closer hcloser rest) (by decide))
  rw [Node.statementText_labeled, ← htext]
  refine ⟨fun d hd => ?_, fun d hd => ?_⟩
  all_goals
    rw [List.length_append] at hd
    rw [List.append_assoc]
  · refine (Ends.of_reads (hlabel.reads_expression false (by omega) (hstops _))).imp ?_
    rintro _ rfl
    exact hstranded _
  · refine (hlabel.ends_pattern (by omega) ((hstops _).chainFollows _)
      (suffixStops_of_notMem (hstops _).noSuffix true)).imp ?_
    rintro _ rfl
    exact hstranded _

/-- A word with parentheses behind it reads like a method, whose body is a block. -/
theorem memberEnds_clause
    {word : String} {test : Node} {rest : List Char}
    (hword : word ∈ ["if", "while"])
    (htest : test.Plain .operand)
    (hrest : test.ParametersLike → ∀ d, 2 * rest.length + need ≤ d →
      Ends (depth d).block (rest ++ tail) Q) :
    MemberEnds need Q
      (word.toList ++ ' ' :: '(' :: (test.text style level ++ ')' :: rest)) tail := by
  have hclause : ∀ word ∈ ["if", "while"], word ∈ clauseWords := by decide
  obtain ⟨hname, hreserved, -, hmodifier⟩ := clauseWords_facts word (hclause word hword)
  refine .of_key hQ hname hmodifier (by simp) rfl fun d hd => ?_
  simp only [List.length_append, List.length_cons] at hd
  simp only [List.cons_append, List.append_assoc]
  refine .of_ne ?_ (fun _ => ?_) fun hfree => Bool.noConfusion (hfree.symm.trans hreserved)
  · rw [markOf_space, markOf_eq (markAt_open _)]
    decide
  · refine .blanks (.bind (.mark "(")) isBlank_of_mem_space ?_
    exact ((decides_parameters_test htest (by omega)).weaken nofun).ends_of_output fun hlike =>
      hrest hlike d (by omega)

end

/-! ### Statements with a body -/

/-- A statement is a block, a call in parentheses, or starts with neither a brace nor a
parenthesis. -/
theorem Node.Nested.start_cases (hn : n.Nested) (style : Style) (level : Nat) :
    n.kind = .blockStatement ∨
      (∃ e : Node, e.Simple ∧
        n.statementText style level = '(' :: (e.text style level ++ [')', ';'])) ∨
      ∀ tail, markOf (n.statementText style level ++ tail) ∈ ["", ";"] := by
  have hword : ∀ {word : String} {rest : List Char}, isNameText word.toList = true →
      markOf (word.toList ++ rest) ∈ ["", ";"] := by
    intro word rest hname
    rw [markOf, markAt_of_isNameText hname]
    decide
  rw [or_iff_not_imp_left]
  intro hkind
  cases hn with
  | block => exact absurd rfl hkind
  | @call span e he _ =>
      obtain ⟨text, htext, hform⟩ := Node.exists_statementText_expression style level span e
      rw [htext]
      rcases hform with rfl | rfl
      · right
        intro tail
        rw [List.append_assoc, he.markOf_text]
        decide
      · exact .inl ⟨e, he, by simp⟩
  | empty =>
      right
      intro tail
      rw [Node.statementText_empty, List.singleton_append,
        markOf_eq (markAt_closer (by decide : (';', ";") ∈ closers) tail)]
      decide
  | ifThen =>
      right
      intro tail
      rw [Node.statementText_ifThen, List.append_assoc]
      exact hword (by decide)
  | ifElse =>
      right
      intro tail
      rw [Node.statementText_ifElse, List.append_assoc]
      exact hword (by decide)
  | whileLoop =>
      right
      intro tail
      rw [Node.statementText_while, List.append_assoc]
      exact hword (by decide)
  | doLoop =>
      right
      intro tail
      rw [Node.statementText_do, List.append_assoc]
      exact hword (by decide)
  | forLoop hinit =>
      right
      intro tail
      rw [Node.statementText_for fun n hn => (hinit n hn).kind_ne, List.append_assoc]
      exact hword (by decide)
  | labeled hname =>
      right
      intro tail
      rw [Node.statementText_labeled, List.append_assoc]
      exact hword (isNameText_of_isVariable hname)

theorem Node.Nested.markOf_ne
    (hn : n.Nested) (hkind : n.kind ≠ .blockStatement)
    (style : Style) (level : Nat) (tail : List Char) :
    markOf (n.statementText style level ++ tail) ≠ "\x7b" := by
  rcases hn.start_cases style level with hblock | ⟨e, -, htext⟩ | hmark
  · exact absurd hblock hkind
  · rw [htext, List.cons_append, markOf_eq (markAt_open _)]
    decide
  · have hall : ∀ mark ∈ ["", ";"], mark ≠ "\x7b" := by decide
    exact hall _ (hmark tail)

theorem Node.Nested.exists_group
    (hn : n.Nested)
    {level : Nat}
    (hopen : markOf (n.statementText style level ++ tail) = "(") :
    ∃ e : Node, e.Simple ∧
      n.statementText style level = '(' :: (e.text style level ++ [')', ';']) := by
  rcases hn.start_cases style level with hblock | hgroup | hmark
  · cases hn with
    | block =>
        rw [Node.statementText_block, List.cons_append, markOf_eq (markAt_brace _)] at hopen
        exact absurd hopen (by decide)
    | _ => cases hblock
  · exact hgroup
  · have hall : ∀ mark ∈ ["", ";"], mark ≠ "(" := by decide
    exact absurd hopen (hall _ (hmark tail))

/-- Where a block is expected, the text of the statement is read back if it is one. -/
def Node.ReadsBlock (style : Style) (n : Node) : Prop :=
  n.kind = .blockStatement → ∀ level d tail, 2 * (n.statementText style level).length ≤ d →
    Reads (depth d).block (n.statementText style level ++ tail) tail fun found =>
      found.sameStructure n = true

theorem ends_block_body
    (hn : n.Nested) (hread : n.ReadsBlock style)
    (level : Nat)
    (hd : 2 * (n.bodyText style level).length ≤ d) (htail : n.kind = .blockStatement → Q tail) :
    Ends (depth d).block (n.bodyText style level ++ tail) Q := by
  unfold Node.bodyText at hd ⊢
  split
  next hkind =>
    rw [if_pos hkind, List.length_cons] at hd
    have hread := hread hkind level d tail (by omega)
    refine (Ends.of_reads (.blank (.bind .start) rfl hread)).imp ?_
    rintro _ rfl
    exact htail hkind
  next hkind =>
    rw [List.append_assoc]
    refine .blanks (.bind .start) (isBlank_of_mem_gap style (level + 1)) (.of_fails ?_)
    exact fails_block ((hn.starts style (level + 1)).begins tail).fresh
      (hn.markOf_ne hkind style (level + 1) tail)

section

variable (hQ : MemberEnd Q) (level : Nat)

include hQ

theorem memberEnds_ifThen
    {test consequent : Node}
    (htest : test.Plain .operand)
    (hconsequent : consequent.Nested)
    (hread : consequent.ReadsBlock style)
    (htail : (Node.mk .ifStatement span [(.test, .node test), (.consequent, .node consequent),
      (.alternate, .absent)]).MethodLike → Q tail) :
    MemberEnds need Q ((Node.mk .ifStatement span [(.test, .node test),
      (.consequent, .node consequent), (.alternate, .absent)]).statementText style level) tail := by
  rw [Node.statementText_ifThen]
  refine memberEnds_clause hQ level (by decide) htest fun hlike d hd => ?_
  exact ends_block_body hconsequent hread level (by omega) fun hblock =>
    htail (.ifThen hlike hblock)

theorem memberEnds_ifElse
    {test consequent alternate : Node}
    (htest : test.Plain .operand)
    (hconsequent : consequent.Nested)
    (hread : consequent.ReadsBlock style) :
    MemberEnds need Q ((Node.mk .ifStatement span [(.test, .node test),
      (.consequent, .node consequent), (.alternate, .node alternate)]).statementText
        style level) tail := by
  rw [Node.statementText_ifElse]
  refine memberEnds_clause hQ level (by decide) htest fun _ d hd => ?_
  rw [List.length_append] at hd
  rw [List.append_assoc]
  refine ends_block_body hconsequent hread level (by omega) fun _ => hQ.stranded _ ?_
  rw [Stranded, Node.elseText, List.append_assoc, List.append_assoc,
    markOf_blanks (Node.isBlank_of_mem_gapBehind style level consequent), markOf,
    markAt_of_isNameText (by decide)]
  decide

theorem memberEnds_while
    {test body : Node}
    (htest : test.Plain .operand)
    (hbody : body.Nested)
    (hread : body.ReadsBlock style)
    (htail : (Node.mk .whileStatement span [(.test, .node test),
      (.body, .node body)]).MethodLike → Q tail) :
    MemberEnds need Q ((Node.mk .whileStatement span [(.test, .node test),
      (.body, .node body)]).statementText style level) tail := by
  rw [Node.statementText_while]
  refine memberEnds_clause hQ level (by decide) htest fun hlike d hd => ?_
  exact ends_block_body hbody hread level (by omega) fun hblock => htail (.whileLoop hlike hblock)

end

theorem memberEnds_do
    {test body : Node}
    (hQ : MemberEnd Q)
    (level : Nat)
    (hbody : body.Nested) :
    MemberEnds need Q ((Node.mk .doWhileStatement span [(.body, .node body),
      (.test, .node test)]).statementText style level) tail := by
  obtain ⟨hname, hreserved, -, hword⟩ := clauseWords_facts "do" (by decide)
  rw [Node.statementText_do]
  refine .of_key hQ hname hword (by simp [body.bodyText_ne_nil]) (body.endsName_bodyText _)
    fun d hd => ?_
  obtain ⟨space, level', -, hspace, htext⟩ := Node.exists_bodyText style level body
  rw [htext] at hd ⊢
  simp only [List.length_append] at hd
  simp only [List.append_assoc]
  refine .of_ne ?_ (fun hopen => ?_) fun hfree => Bool.noConfusion (hfree.symm.trans hreserved)
  · rw [markOf_blanks hspace]
    have hall : ∀ mark ∈ ["", ";", "(", "\x7b"], mark ≠ ":" := by decide
    exact hall _ ((hbody.starts style level').mark_mem _)
  · rw [markOf_blanks hspace] at hopen
    obtain ⟨e, he, hgroup⟩ := hbody.exists_group hopen
    rw [hgroup] at hd ⊢
    simp only [List.length_cons, List.length_append, List.length_nil] at hd
    simp only [List.cons_append, List.append_assoc, List.nil_append]
    refine .blanks (.bind (.mark "(")) hspace ?_
    exact ((decides_parameters_test he.plain (by omega)).weaken nofun).ends_of_output fun _ =>
      .of_fails (fails_block_semicolon _)

/-! ### Heads of loops -/

theorem wordOf_spaced {mark : String} (hmark : mark ∈ punctuators) (rest : List Char) :
    wordOf (mark.toList ++ ' ' :: rest) = "" := by
  have hall : ∀ mark ∈ punctuators,
      mark.toList.head?.any (fun c => !isNameChar c && c != '\\') = true := by decide +kernel
  have hstop := hall mark hmark
  have hfresh := (spaced_mark mark hmark rest).1
  cases hchars : mark.toList with
  | nil => simp [hchars] at hstop
  | cons c more =>
      obtain ⟨hc, hescape⟩ : isNameChar c = false ∧ c ≠ '\\' := by simpa [hchars] using hstop
      rw [hchars, List.cons_append] at hfresh
      rw [List.cons_append, wordOf, wordAt_of_stop hfresh hc hescape]
      rfl

/-- What may stand behind a reference at the start of the head of a loop. -/
structure Grammar.LoopRest (text : List Char) : Prop where
  follows : ∀ integer, ChainFollows integer text
  stops : suffixStops true text
  word : wordOf text = ""

theorem Grammar.LoopRest.semicolon (rest : List Char) : LoopRest (';' :: rest) := by
  have hstops : Stops 0 (';' :: rest) := .closer (by decide : (';', ";") ∈ closers) 0 rest
  refine ⟨fun _ => hstops.chainFollows _, suffixStops_of_notMem hstops.noSuffix true, ?_⟩
  rw [wordOf, wordAt_of_stop rfl (by decide) (by decide)]
  rfl

theorem Grammar.LoopRest.assignment
    {operator : String}
    (hoperator : operator ∈ assignmentMarks)
    (rest : List Char) :
    LoopRest (' ' :: (operator.toList ++ ' ' :: rest)) := by
  have hmem := assignmentMarks_subset operator hoperator
  have hmark : markOf (' ' :: (operator.toList ++ ' ' :: rest)) = operator := by
    rw [markOf_space, markOf_eq (markAt_spaced hmem rest)]
  have hall : ∀ operator ∈ assignmentMarks, operator ≠ "=>" ∧ operator ∉ suffixMarks := by decide
  refine ⟨fun _ => ⟨⟨rfl, ?_⟩, by simp⟩, suffixStops_of_notMem ?_ true, ?_⟩
  · rw [hmark]
    exact (hall operator hoperator).1
  · rw [hmark]
    exact (hall operator hoperator).2
  · rw [wordOf_space, wordOf_spaced hmem]

/-- The head of a loop starts with a simple expression, which it may assign to. -/
theorem Node.LoopStart.exists_simple
    {n : Node}
    (hn : n.LoopStart)
    (style : Style) (level : Nat) :
    ∃ (m : Node) (rest : List Char), m.Simple ∧ n.text style level = m.text style level ++ rest ∧
      (rest = [] ∨ ∃ (operator : String) (right : Node), operator ∈ assignmentMarks ∧
        right.Plain .operand ∧ rest = ' ' :: (operator.toList ++
          ' ' :: right.operandText style level Strength.assignment)) := by
  cases hn with
  | call hn => exact ⟨n, [], hn, (List.append_nil _).symm, .inl rfl⟩
  | @assignment _ operator left right hoperator hleft hright =>
      have hsimple := Node.Simple.reference hleft
      refine ⟨left, _, hsimple, ?_, .inr ⟨operator, right, hoperator, hright, rfl⟩⟩
      rw [Node.text_assignment, hsimple.operandText_eq_text (Nat.le_refl _)]

theorem Node.LoopStart.loopRest
    {rest : List Char}
    (hrest : rest = [] ∨ ∃ (operator : String) (right : Node), operator ∈ assignmentMarks ∧
      right.Plain .operand ∧ rest = ' ' :: (operator.toList ++
        ' ' :: right.operandText style level Strength.assignment))
    (tail : List Char) :
    LoopRest (rest ++ ';' :: tail) := by
  rcases hrest with rfl | ⟨operator, right, hoperator, -, rfl⟩
  · exact .semicolon tail
  · simp only [List.cons_append, List.append_assoc]
    exact .assignment hoperator _

theorem markOf_loopStart {init : Option Node} (hinit : ∀ n ∈ init, n.LoopStart) :
    markOf (Node.partText style level [] init ++ ';' :: tail) ∈ ["", ";"] := by
  cases init with
  | none =>
      rw [Node.partText, List.nil_append,
        markOf_eq (markAt_closer (by decide : (';', ";") ∈ closers) tail)]
      decide
  | some n =>
      obtain ⟨m, rest, hm, htext, -⟩ := (hinit n rfl).exists_simple style level
      rw [Node.partText, List.nil_append, htext, List.append_assoc, hm.markOf_text]
      decide

/-- The head of a loop is no list of parameters: its first part ends at a semicolon. -/
theorem ends_parameter_loopStart
    {init : Option Node}
    (hinit : ∀ n ∈ init, n.LoopStart) (hd : 2 * (Node.partText style level [] init).length < d) :
    Ends (parameter (depth d)) (Node.partText style level [] init ++ ';' :: tail)
      fun rest => markOf rest ∉ [")", ","] := by
  have hsemicolon : ∀ rest, markOf (';' :: rest) = ";" :=
    fun rest => markOf_eq (markAt_closer (by decide : (';', ";") ∈ closers) rest)
  cases init with
  | none =>
      refine .after (Reads.start (skipped_of_isFresh rfl)) fun origin _ => ?_
      exact .of_fails (fails_pattern_semicolon d).bind
  | some n =>
      obtain ⟨m, rest, hm, htext, hrest⟩ := (hinit n rfl).exists_simple style level
      have hloop := Node.LoopStart.loopRest hrest tail
      rw [Node.partText, List.nil_append, htext] at hd ⊢
      rw [List.length_append] at hd
      rw [List.append_assoc]
      have hopens := ((hm.rereads style).leading level).opens _ (hloop.follows false).ends
      refine .after (Reads.start (skipped_of_isFresh hopens.fresh)) fun origin _ => ?_
      refine (hm.ends_pattern (by omega) (hloop.follows _) hloop.stops).bind ?_
      intro left stop hstop
      subst hstop
      rcases hrest with rfl | ⟨operator, right, hoperator, hright, rfl⟩
      · refine .after (Reads.hasMark_false ?_) fun found hfound => ?_
        · rw [List.nil_append, hsemicolon]
          decide
        · rw [hfound]
          refine .of_pure ?_
          rw [List.nil_append, hsemicolon]
          decide
      · simp only [List.length_cons, List.length_append] at hd
        simp only [List.cons_append, List.append_assoc]
        have hmark := markAt_spaced (assignmentMarks_subset operator hoperator)
          (right.operandText style level Strength.assignment ++ ';' :: tail)
        rw [← markAt_space] at hmark
        by_cases hequal : operator = "="
        · subst hequal
          refine .after (Reads.hasMark hmark) fun found hfound => ?_
          rw [hfound]
          have hread : Reads ((depth d).expression false)
              (right.operandText style level Strength.assignment ++ ';' :: tail) (';' :: tail)
              fun o => o.node.sameStructure right = true :=
            Node.Rereads.reads_operandText (hright.rereadsAs style) level false (by decide)
              (by omega) (fun _ => Nat.zero_le _)
              (.closer (by decide : (';', ";") ∈ closers) 0 tail)
          refine .after (GoesOn.blank (skips_operation d 0) rfl hread) fun value _ => .node ?_
          rw [hsemicolon]
          decide
        · refine .after (Reads.hasMark_false ?_) fun found hfound => ?_
          · rwa [markOf_eq hmark]
          · rw [hfound]
            refine .of_pure ?_
            have hall : ∀ operator ∈ assignmentMarks, operator ∉ [")", ","] := by decide
            rw [markOf_eq hmark]
            exact hall operator hoperator

theorem memberEnds_for
    {init test update : Option Node} {body : Node}
    (hQ : MemberEnd Q)
    (level : Nat)
    (hinit : ∀ n ∈ init, n.LoopStart) :
    MemberEnds need Q ((Node.mk .forStatement span [(.init, .ofOption init),
      (.test, .ofOption test), (.update, .ofOption update), (.body, .node body)]).statementText
        style level) tail := by
  obtain ⟨hname, hreserved, -, hword⟩ := clauseWords_facts "for" (by decide)
  rw [Node.statementText_for fun n hn => (hinit n hn).kind_ne]
  refine .of_key hQ hname hword (by simp) rfl fun d hd => ?_
  simp only [List.length_append, List.length_cons] at hd
  simp only [List.cons_append, List.append_assoc]
  refine .of_ne ?_ (fun _ => ?_) fun hfree => Bool.noConfusion (hfree.symm.trans hreserved)
  · rw [markOf_space, markOf_eq (markAt_open _)]
    decide
  · refine .blanks (.bind (.mark "(")) isBlank_of_mem_space (.of_fails (fails_parameters ?_ ?_))
    · have hall : ∀ mark ∈ ["", ";"], mark ≠ ")" := by decide
      exact hall _ (markOf_loopStart hinit)
    · exact ends_parameter_loopStart hinit (by omega)

/-! ## Lines -/

/-- The statements of a block, each on a line of its own, and the closing brace. -/
def linesText (style : Style) (level : Nat) (ns : List Node) : List Char :=
  (ns.flatMap fun n => gap style (level + 1) ++ n.statementText style (level + 1)) ++
    (gap style level ++ ['\x7d'])

theorem Node.statementText_lines {ns : List Node} :
    (Node.mk .blockStatement span [(.body, .list ns)]).statementText style level =
      '\x7b' :: linesText style level ns :=
  Node.statementText_block

theorem markAt_linesText_nil (tail : List Char) :
    markAt (linesText style level [] ++ tail) = some ("\x7d", tail) := by
  rw [linesText, List.flatMap_nil, List.nil_append, List.append_assoc,
    markAt_blanks (isBlank_of_mem_gap style level)]
  exact markAt_closer (by decide : ('\x7d', "\x7d") ∈ closers) tail

theorem wordAt_linesText_nil (tail : List Char) :
    wordAt (linesText style level [] ++ tail) = none := by
  rw [linesText, List.flatMap_nil, List.nil_append, List.append_assoc,
    wordAt_blanks (isBlank_of_mem_gap style level)]
  exact wordAt_of_stop rfl (by decide) (by decide)

theorem linesText_cons {n : Node} {ns : List Node} :
    linesText style level (n :: ns) = gap style (level + 1) ++
      (n.statementText style (level + 1) ++ linesText style level ns) := by
  simp [linesText]

theorem closes_linesText_nil (tail : List Char) :
    Closes (linesText style level [] ++ tail) := by
  have hgap := isBlank_of_mem_gap style level
  have hends := endsName_blanks (by simp [gap]) hgap ('\x7d' :: tail)
  refine ⟨?_, ?_, ?_, ?_⟩
  · rw [markOf_eq (markAt_linesText_nil tail)]
    decide
  · rw [wordOf, wordAt_linesText_nil]
    rfl
  · simpa [linesText] using hends.1
  · simpa [linesText] using hends.2

/-- The closing brace stands behind the last statement. -/
theorem markOf_linesText_iff
    {ns : List Node}
    (hns : ∀ n ∈ ns, n.Nested)
    (tail : List Char) :
    markOf (linesText style level ns ++ tail) = "\x7d" ↔ ns = [] := by
  cases ns with
  | nil => simp [markOf_eq (markAt_linesText_nil tail)]
  | cons n ns =>
      have hall : ∀ mark ∈ ["", ";", "(", "\x7b"], mark ≠ "\x7d" := by decide
      simp only [linesText_cons, List.append_assoc]
      rw [markOf_blanks (isBlank_of_mem_gap style (level + 1))]
      simpa using hall _ (((hns n List.mem_cons_self).starts style (level + 1)).mark_mem _)

/-! ### What a value leaves of the next line -/

/-- Behind a value the reading goes on to `middle`: over a call, if the text starts with one. -/
structure Grammar.LeavesBehind (need : Nat) (middle tail : List Char) : Prop where
  read : ∀ d lineEnds o, need ≤ d →
    Reads (suffixed (depth d) true lineEnds o) tail middle fun _ => True
  stops : Stops 0 middle

theorem Grammar.LeavesBehind.of_stops (htail : Stops 0 tail) : LeavesBehind need tail tail where
  read _ _ _ _ :=
    (reads_suffixed_none (suffixStops_of_notMem htail.noSuffix true)).imp fun _ _ => trivial
  stops := htail

theorem Grammar.EndsBehind.of_leaves
    {middle : List Char}
    (hleaves : LeavesBehind need middle tail) (htail : Q tail) (hmiddle : Q middle) :
    EndsBehind need Q tail where
  here := htail
  behind d lineEnds o hd := by
    refine (Ends.of_reads (hleaves.read d lineEnds o hd)).imp ?_
    rintro _ rfl
    exact ⟨hmiddle, hleaves.stops⟩

/-- A line in parentheses is read as the arguments of a call. -/
theorem leavesBehind_group
    {e : Node} {space : List Char}
    (he : e.Simple)
    (hspace : ∀ c ∈ space, Text.isBlank c = true)
    (hneed : 2 * (e.text style level).length < need) :
    LeavesBehind need (';' :: tail)
      (space ++ '(' :: (e.text style level ++ ')' :: ';' :: tail)) := by
  have hstops : Stops 0 (';' :: tail) := .closer (by decide : (';', ";") ∈ closers) 0 tail
  refine ⟨fun d lineEnds o hd => ?_, hstops⟩
  have hitem : ReadsItem (depth d) (e.text style level) e := by
    rw [← he.operandText_eq_text (by decide : Strength.assignment ≤ Strength.call)] at hneed ⊢
    exact (he.rereads style).readsItem level (by omega)
  have hargs : Reads (arguments (depth d))
      (space ++ '(' :: (e.text style level ++ ')' :: ';' :: tail)) (';' :: tail) fun _ => True := by
    have hread : Reads (arguments (depth d))
        ('(' :: (joined ([(e.text style level, e)].map Prod.fst) ++ ')' :: ';' :: tail))
          (';' :: tail) _ := reads_arguments (List.forall_mem_singleton.mpr hitem)
    have hjoined : joined ([(e.text style level, e)].map Prod.fst) = e.text style level :=
      List.append_nil _
    rw [hjoined] at hread
    exact (GoesOn.blanks hspace (.bind (.mark "(")) hread).imp fun _ _ => trivial
  have hcall : Reads (suffix? (depth d) true lineEnds o)
      (space ++ '(' :: (e.text style level ++ ')' :: ';' :: tail)) (';' :: tail) fun found =>
        ∃ longer, found = some longer := by
    refine .get fun cur hcur => ?_
    have hnext : cur.nextMark = "(" := by
      rw [Cursor.nextMark_eq, hcur, markOf_blanks hspace, markOf_eq (markAt_open _)]
    simp only [hnext]
    refine hargs.bind fun args _ => .map ?_
    exact Reads.newNode.bind fun n _ => .of_pure ⟨_, rfl⟩
  refine .get fun cur hcur => ?_
  obtain ⟨fuel, hfuel⟩ : ∃ fuel, cur.rest.length = fuel + 1 := by
    rw [hcur, List.length_append, List.length_cons]
    exact ⟨_, rfl⟩
  rw [hfuel]
  refine hcall.bind fun found hfound => ?_
  obtain ⟨longer, rfl⟩ := hfound
  refine (reads_suffix_none (suffixStops_of_notMem hstops.noSuffix true)).bind fun found hnone => ?_
  rw [hnone]
  exact .of_pure trivial

theorem Node.Nested.exists_leavesBehind
    {space : List Char}
    (hn : n.Nested) (hne : space ≠ []) (hspace : ∀ c ∈ space, Text.isBlank c = true)
    (style : Style) (level : Nat) (tail : List Char)
    (hneed : 2 * (n.statementText style level).length ≤ need) :
    ∃ middle, LeavesBehind need middle (space ++ (n.statementText style level ++ tail)) ∧
      (middle = space ++ (n.statementText style level ++ tail) ∨ ∃ rest, middle = ';' :: rest) := by
  by_cases hopen : markOf (n.statementText style level ++ tail) = "("
  · obtain ⟨e, he, htext⟩ := hn.exists_group hopen
    rw [htext] at hneed ⊢
    simp only [List.length_cons, List.length_append, List.length_nil] at hneed
    simp only [List.cons_append, List.append_assoc, List.nil_append]
    exact ⟨_, leavesBehind_group he hspace (by omega), .inr ⟨tail, rfl⟩⟩
  · refine ⟨_, .of_stops (((hn.starts style level).closes hne hspace tail).stops ?_), .inl rfl⟩
    rwa [markOf_blanks hspace]

/-! ### The lines of a block -/

theorem bracesEnd_nil : BracesEnd True (linesText style level []) where
  object _ tail _ := (Ends.of_reads (reads_object_empty (markAt_linesText_nil tail))).imp
    fun _ hrest => ⟨trivial, hrest⟩
  pattern _ tail _ := (Ends.of_reads (reads_objectPattern_empty (markAt_linesText_nil tail))).imp
    fun _ hrest => ⟨trivial, hrest⟩

theorem bracesEnd_cons
    {s : Node} {ns : List Node} {through : Prop}
    (hs : s.Nested)
    (hfirst : ∀ tail, ∃ close, markAt close = some ("\x7d", tail) ∧
      MemberEnds (2 * (linesText style level ns).length) (LastMemberEnd through close)
        (s.statementText style (level + 1)) (linesText style level ns ++ tail)) :
    BracesEnd through (linesText style level (s :: ns)) := by
  have hgap := isBlank_of_mem_gap style (level + 1)
  have hmark : ∀ tail, markOf (linesText style level (s :: ns) ++ tail) ∉ ["\x7d", ","] := by
    intro tail
    have hall : ∀ mark ∈ ["", ";", "(", "\x7b"], mark ∉ ["\x7d", ","] := by decide
    simp only [linesText_cons, List.append_assoc]
    rw [markOf_blanks hgap]
    exact hall _ ((hs.starts style (level + 1)).mark_mem _)
  refine ⟨fun d tail hd => ?_, fun d tail hd => ?_⟩
  all_goals
    obtain ⟨close, hclose, hmember⟩ := hfirst tail
    simp only [linesText_cons, List.length_append] at hd
  · refine ends_object (hmark tail) hclose ?_
    simp only [linesText_cons, List.append_assoc]
    exact .blanks (.bind .start) hgap (hmember.object d (by omega))
  · refine ends_objectPattern (hmark tail) hclose ?_
    simp only [linesText_cons, List.append_assoc]
    exact .blanks (.bind .start) hgap (hmember.pattern d (by omega))

/-- Alone in a block, the statement reads like the only member of an object. -/
inductive Node.MemberLike : Node → Prop
  | method {n : Node} (hn : n.MethodLike) : MemberLike n
  | labeled {span : Span} {label body : Node} (hbody : body.ObjectLike) :
      MemberLike (.mk .labeledStatement span [(.label, .node label), (.body, .node body)])

/-- Where the text of a statement ends that is tried as a value or as a member of an object. -/
structure Node.TriedEnds (style : Style) (n : Node) : Prop where
  value : ∀ (need : Nat) (Q : List Char → Prop) (level : Nat) (tail : List Char), MemberEnd Q →
    (n.LosesBlock True ∨ n.ObjectLike → EndsBehind need Q tail) →
      ValueEnds need Q (n.statementText style level) tail
  member : ∀ (need : Nat) (Q : List Char → Prop) (level : Nat) (tail : List Char), MemberEnd Q →
    (n.LosesBlock True ∨ n.MemberLike → EndsBehind need Q tail) →
      MemberEnds need Q (n.statementText style level) tail

theorem losesBlock_or_objectLike_single {s : Node} (hs : s.LosesBlock True ∨ s.MemberLike) :
    (Node.mk .blockStatement span [(.body, .list [s])]).LosesBlock True ∨
      (Node.mk .blockStatement span [(.body, .list [s])]).ObjectLike := by
  rcases hs with hs | hs
  · exact .inl (@Node.LosesBlock.line True span [] [] s (hs.mono (by simp [LineEndsBefore])))
  · cases hs with
    | method hs => exact .inr (.method hs)
    | labeled hbody => exact .inl (.here trivial hbody)

theorem bracesEnd_block
    {ns : List Node}
    (hns : ∀ n ∈ ns, n.Nested) (hfirst : ∀ s ∈ ns.head?, s.TriedEnds style)
    (level : Nat) (span : Span) :
    BracesEnd ((Node.mk .blockStatement span [(.body, .list ns)]).LosesBlock True ∨
      (Node.mk .blockStatement span [(.body, .list ns)]).ObjectLike)
        (linesText style level ns) := by
  cases ns with
  | nil =>
      refine ⟨fun d tail hd => ?_, fun d tail hd => ?_⟩
      · exact (bracesEnd_nil.object d tail hd).imp fun _ hrest => ⟨.inr .empty, hrest.2⟩
      · exact (bracesEnd_nil.pattern d tail hd).imp fun _ hrest => ⟨.inr .empty, hrest.2⟩
  | cons s ns =>
      refine bracesEnd_cons (hns s List.mem_cons_self) fun tail => ?_
      cases ns with
      | nil =>
          have hclose : markAt (linesText style level [] ++ tail) = some ("\x7d", tail) :=
            markAt_linesText_nil tail
          have hcloses : Closes (linesText style level [] ++ tail) := closes_linesText_nil tail
          refine ⟨_, hclose, (hfirst s rfl).member _ _ _ _ (memberEnd_lastMember (markOf_eq hclose))
            fun hloose => ?_⟩
          refine .of_leaves (.of_stops (hcloses.stops ?_)) ?_ ?_
          · rw [markOf_eq hclose]
            decide
          · exact .inr ⟨losesBlock_or_objectLike_single hloose, rfl⟩
          · exact .inr ⟨losesBlock_or_objectLike_single hloose, rfl⟩
      | cons m ns =>
          have hm := hns m (by simp)
          have hgap := isBlank_of_mem_gap style (level + 1)
          have hclose : markAt ('\x7d' :: tail) = some ("\x7d", tail) :=
            markAt_closer (by decide : ('\x7d', "\x7d") ∈ closers) tail
          refine ⟨_, hclose, (hfirst s rfl).member _ _ _ _ (memberEnd_lastMember (markOf_eq hclose))
            fun _ => ?_⟩
          obtain ⟨middle, hleaves, hmiddle⟩ := hm.exists_leavesBehind (by simp [gap]) hgap style
            (level + 1) (linesText style level ns ++ tail)
            (by simp only [linesText_cons, List.length_append]; omega :
              _ ≤ 2 * (linesText style level (m :: ns)).length)
          have hstranded : Stranded (linesText style level (m :: ns) ++ tail) := by
            have hall : ∀ mark ∈ ["", ";", "(", "\x7b"], mark ∉ ["\x7d", ",", "="] := by decide
            simp only [linesText_cons, List.append_assoc]
            rw [Stranded, markOf_blanks hgap]
            exact hall _ ((hm.starts style (level + 1)).mark_mem _)
          have htext : linesText style level (m :: ns) ++ tail = gap style (level + 1) ++
              (m.statementText style (level + 1) ++ (linesText style level ns ++ tail)) := by
            simp [linesText_cons]
          rw [htext] at hstranded ⊢
          refine .of_leaves hleaves (.inl hstranded) (.inl ?_)
          rcases hmiddle with rfl | ⟨rest, rfl⟩
          · exact hstranded
          · exact stranded_of_mark (markAt_closer (by decide : (';', ";") ∈ closers) rest)
              (by decide)

end Graft
