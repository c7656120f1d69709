import Graft.Proofs.Reprint.LineEnds

/-!
# Printed statements read back

Nested statements are printed with braces only where the tree has blocks.  They are read back if no
`else` of the tree would be taken by an `if` further inside, and no block is taken for an object.
-/

namespace Graft

open Grammar

variable {style : Style} {level d : Nat} {span : Span} {tail : List Char} {free : Prop}

/-- The text of the statement is read back, in front of an `else` only if it does not end in an
`if` that would take it, and only where no statement may end if `free` does not hold. -/
def Node.ReadsBack (style : Style) (free : Prop) (n : Node) : Prop :=
  ∀ level d tail, 2 * (n.statementText style level).length ≤ d → Closes tail →
    (n.EndsOpen → wordOf tail ≠ "else") → (¬ free → Refuses tail) →
      Reads (statement (depth d)) (n.statementText style level ++ tail) tail fun found =>
        found.sameStructure n = true

namespace Grammar

variable {g : Productions}

/-! ## The first token of a statement -/

/-- The statements that a word of their own starts. -/
def clauseProductions (g : Productions) : List (String × (Cursor → Parser Node)) :=
  [("if", ifStatement g), ("while", whileStatement g), ("do", doStatement g),
    ("for", forStatement g)]

theorem goesOn_statement_clause
    {word : String} {p : Cursor → PUnit → Parser Node}
    (hp : (clauseProductions g).lookup word = some fun origin => keyword word >>= p origin)
    (hends : endsName tail = true) :
    GoesOn (statement g) (word.toList ++ tail) tail (fun origin => p origin ⟨⟩) fun _ => True := by
  obtain ⟨front, behind, hsplit, -⟩ := List.lookup_eq_some_iff.mp hp
  have hp : (word, fun origin => keyword word >>= p origin) ∈ clauseProductions g := by
    rw [hsplit]
    simp
  have hword : word ∈ clauseWords := List.mem_map_of_mem (f := Prod.fst) hp
  obtain ⟨hname, hreserved, -, -⟩ := clauseWords_facts word hword
  refine (Reads.operandStart (isFresh_of_isNameText hname)).bind fun origin horigin => ?_
  obtain ⟨next, hfound, -⟩ := Cursor.exists_word? horigin (wordAt_append hname hends)
  have hdeclares : word ∉ declarationWords := by
    have hall : ∀ word ∈ clauseWords, word ∉ declarationWords := by decide
    exact hall word hword
  have hat : origin.nextMark ≠ "@" := by
    rw [Cursor.nextMark_eq, horigin, markOf, markAt_of_isNameText hname]
    decide
  simp only [hfound]
  unfold wordStatement
  simp only [hreserved, Bool.not_true, Bool.false_and, Bool.false_eq_true, if_false,
    declaration?_eq_none hfound hdeclares hat, pure_bind]
  have hgoes : GoesOn (keyword word >>= p origin) (word.toList ++ tail) tail
      (fun origin => p origin ⟨⟩) fun _ => True :=
    (Reads.keyword (wordAt_append hname hends)).bind fun _ _ cur hcur =>
      ⟨origin, cur, rfl, hcur, trivial⟩
  simp only [clauseProductions, List.mem_cons, Prod.mk.injEq, List.not_mem_nil, or_false] at hp
  rcases hp with ⟨rfl, hp⟩ | ⟨rfl, hp⟩ | ⟨rfl, hp⟩ | ⟨rfl, hp⟩
  all_goals exact congrFun hp origin ▸ hgoes

theorem goesOn_statement_label {name : String} (hname : isVariable name = true) :
    GoesOn (statement g) (name.toList ++ ':' :: tail) (name.toList ++ ':' :: tail)
      (labeledStatement g) fun _ => True := by
  have htext := isNameText_of_isVariable hname
  refine (Reads.operandStart (isFresh_of_isNameText htext)).bind fun origin horigin => ?_
  obtain ⟨next, hfound, hnext⟩ := Cursor.exists_word? horigin (wordAt_append htext rfl)
  have hcolon : next.nextMark = ":" := by
    rw [Cursor.nextMark_eq, hnext,
      markOf_eq (markAt_closer (by decide : (':', ":") ∈ closers) tail)]
  simp only [hfound]
  unfold wordStatement
  simp only [isReserved_of_isVariable hname, hcolon, BEq.rfl, Bool.not_false, Bool.and_self,
    if_true]
  exact fun cur hcur => ⟨origin, cur, rfl, hcur, trivial⟩

theorem goesOn_statement_brace :
    GoesOn (statement g) ('\x7b' :: tail) ('\x7b' :: tail) (braceStatement g)
      fun origin => origin.rest = '\x7b' :: tail := by
  refine (Reads.operandStart rfl).bind fun origin horigin => ?_
  have hword : origin.word? = none :=
    Cursor.word?_eq_none horigin (wordAt_of_stop rfl (by decide) (by decide))
  have hnext : origin.nextMark = "\x7b" := by
    rw [Cursor.nextMark_eq, horigin, markOf_eq (markAt_brace tail)]
  simp only [hword, hnext, BEq.rfl, if_true]
  exact fun cur hcur => ⟨origin, cur, rfl, hcur, horigin⟩

theorem reads_statement_empty :
    Reads (statement g) (';' :: tail) tail fun found =>
      found.sameStructure (.mk .emptyStatement span []) = true := by
  have hmark := markAt_closer (by decide : (';', ";") ∈ closers) tail
  refine (Reads.operandStart rfl).bind fun origin horigin => ?_
  have hword : origin.word? = none :=
    Cursor.word?_eq_none horigin (wordAt_of_stop rfl (by decide) (by decide))
  have hnext : origin.nextMark = ";" := by rw [Cursor.nextMark_eq, horigin, markOf_eq hmark]
  simp only [hword, hnext]
  refine (Reads.mark hmark).bind fun _ _ => ?_
  exact Reads.node fun _ => Node.sameStructure_mk (by simp) (by simp)

end Grammar

/-! ## Parts of statements -/

/-- A condition in parentheses. -/
theorem reads_condition
    {test : Node}
    (htest : test.Plain .operand) (hd : 2 * (test.text style level).length < d) :
    Reads (depth d).parenthesized (' ' :: '(' :: (test.text style level ++ ')' :: tail)) tail
      fun found => found.sameStructure test = true := by
  have hrereads : test.Rereads style := htest.rereadsAs style
  have hcomma : markOf (')' :: tail) ≠ "," := by
    rw [markOf_eq (markAt_closer (by decide : (')', ")") ∈ closers) tail)]
    decide
  refine .blank (.bind (.mark "(")) rfl (reads_parenthesized ?_)
  exact hrereads.expressions level d false _ hd (.closer (by decide : (')', ")") ∈ closers) 0 tail)
    hcomma

/-- A statement behind blanks, inside another. -/
theorem Node.ReadsBack.inside
    {n : Node}
    (hn : n.ReadsBack style free)
    {space : List Char}
    (hspace : ∀ c ∈ space, Text.isBlank c = true)
    (hd : 2 * (n.statementText style level).length < d)
    (htail : Closes tail)
    (helse : n.EndsOpen → wordOf tail ≠ "else")
    (hfree : ¬ free → Refuses tail) :
    Reads (depth d).statement (space ++ (n.statementText style level ++ tail)) tail fun found =>
      found.sameStructure n = true := by
  obtain ⟨d, rfl⟩ : ∃ k, d = k + 1 := ⟨d - 1, by omega⟩
  exact .blanks hspace skips_statement (hn level d tail (by omega) htail helse hfree)

theorem Node.ReadsBack.body
    {n : Node}
    (hn : n.ReadsBack style free)
    (hd : 2 * (n.bodyText style level).length ≤ d)
    (htail : Closes tail)
    (helse : n.EndsOpen → wordOf tail ≠ "else")
    (hfree : ¬ free → Refuses tail) :
    Reads (depth d).statement (n.bodyText style level ++ tail) tail fun found =>
      found.sameStructure n = true := by
  obtain ⟨space, level', hne, hspace, htext⟩ := n.exists_bodyText style level
  have hlength := List.length_pos_of_ne_nil hne
  rw [htext, List.length_append] at hd
  rw [htext, List.append_assoc]
  exact hn.inside hspace (by omega) htail helse hfree

theorem Node.gapBehind_ne_nil (style : Style) (level : Nat) (body : Node) :
    Node.gapBehind style level body ≠ [] := by
  unfold Node.gapBehind
  split <;> simp [gap]

/-! ## One kind of statement after the other -/

theorem readsBack_ifThen
    {test consequent : Node}
    (htest : test.Plain .operand) (hconsequent : consequent.ReadsBack style free) :
    (Node.mk .ifStatement span [(.test, .node test), (.consequent, .node consequent),
      (.alternate, .absent)]).ReadsBack style free := by
  intro level d tail hd htail helse hfree
  rw [Node.statementText_ifThen] at hd ⊢
  simp only [List.length_append, List.length_cons] at hd
  have hopen : wordOf tail ≠ "else" := helse (.here rfl rfl)
  simp only [List.append_assoc, List.cons_append]
  refine (goesOn_statement_clause rfl rfl).trans fun origin _ => ?_
  refine (reads_condition htest (by omega)).bind fun found hfound => ?_
  refine (hconsequent.body (by omega) htail (fun _ => hopen) hfree).bind fun first hfirst => ?_
  refine (Reads.hasKeyword_false hopen).bind fun _ hno => ?_
  rw [hno]
  refine (GoesOn.of_pure rfl : Reads _ _ _ (· = none)).bind fun _ hnone => ?_
  rw [hnone]
  exact Reads.node fun _ => Node.sameStructure_mk (by simp)
    (by simp [Slot.sameStructure, Slot.ofOption, hfound, hfirst])

/-- An `if` behind `else` stays on the line, any other statement may start a new one. -/
theorem Node.exists_elseText
    (style : Style) (level : Nat) (consequent alternate : Node) :
    ∃ (space : List Char) (level' : Nat), space ≠ [] ∧ (∀ c ∈ space, Text.isBlank c = true) ∧
      Node.elseText style level consequent alternate = Node.gapBehind style level consequent ++
        ("else".toList ++ (space ++ alternate.statementText style level')) := by
  unfold Node.elseText
  split
  · exact ⟨[' '], level, by simp, isBlank_of_mem_space, rfl⟩
  · obtain ⟨space, level', hne, hspace, htext⟩ := alternate.exists_bodyText style level
    exact ⟨space, level', hne, hspace, by rw [htext]⟩

/-- The consequent leaves the `else` to its `if`, because it does not end in an open one. -/
theorem Node.ReadsBack.beforeElse
    {consequent : Node} {after : List Char}
    (hn : consequent.ReadsBack style (consequent.kind ≠ .blockStatement))
    (hclosed : ¬ consequent.EndsOpen)
    (hends : endsName after = true)
    (hd : 2 * (consequent.bodyText style level).length ≤ d) :
    Reads (depth d).statement (consequent.bodyText style level ++
      (Node.gapBehind style level consequent ++ ("else".toList ++ after)))
      (Node.gapBehind style level consequent ++ ("else".toList ++ after))
      fun found => found.sameStructure consequent = true := by
  have hgap := Node.isBlank_of_mem_gapBehind style level consequent
  refine hn.body hd (.of_word (Node.gapBehind_ne_nil style level consequent) hgap (by decide)
    (by decide) hends) (fun hopen => absurd hopen hclosed) fun hkind => ?_
  rw [Node.gapBehind, if_pos (not_not.mp hkind)]
  exact refuses_word (by decide)

theorem Node.wordAt_else
    {after : List Char}
    (consequent : Node)
    (hends : endsName after = true) :
    wordAt (Node.gapBehind style level consequent ++ ("else".toList ++ after)) =
      some ("else", after) := by
  rw [wordAt_blanks (Node.isBlank_of_mem_gapBehind style level consequent),
    wordAt_append (by decide) hends]

theorem readsBack_ifElse
    {test consequent alternate : Node}
    (htest : test.Plain .operand)
    (hconsequent : consequent.ReadsBack style (consequent.kind ≠ .blockStatement))
    (halternate : alternate.ReadsBack style free)
    (hclosed : ¬ consequent.EndsOpen) :
    (Node.mk .ifStatement span [(.test, .node test), (.consequent, .node consequent),
      (.alternate, .node alternate)]).ReadsBack style free := by
  intro level d tail hd htail helse hfree
  rw [Node.statementText_ifElse] at hd ⊢
  obtain ⟨space, level', hne, hspace, htext⟩ :=
    Node.exists_elseText style level consequent alternate
  have hends := (endsName_blanks hne hspace (alternate.statementText style level' ++ tail)).1
  rw [htext] at hd ⊢
  simp only [List.length_append, List.length_cons] at hd
  simp only [List.append_assoc, List.cons_append]
  refine (goesOn_statement_clause rfl rfl).trans fun origin _ => ?_
  refine (reads_condition htest (by omega)).bind fun found hfound => ?_
  refine (hconsequent.beforeElse hclosed hends (by omega)).bind fun first hfirst => ?_
  refine (Reads.hasKeyword (consequent.wordAt_else hends)).bind fun _ hyes => ?_
  rw [hyes]
  have hread : Reads (depth d).statement (space ++ (alternate.statementText style level' ++ tail))
      tail fun found => found.sameStructure alternate = true :=
    halternate.inside hspace (by omega) htail (fun hopen => helse (.last rfl rfl hopen)) hfree
  refine (GoesOn.map (f := some) (Q := fun found => ∃ n, found = some n ∧
    n.sameStructure alternate = true) (hread.imp fun n hn => ⟨n, rfl, hn⟩)).bind fun _ hsecond => ?_
  obtain ⟨second, rfl, hsecond⟩ := hsecond
  exact Reads.node fun _ => Node.sameStructure_mk (by simp)
    (by simp [Slot.sameStructure, Slot.ofOption, hfound, hfirst, hsecond])

theorem readsBack_while
    {test body : Node}
    (htest : test.Plain .operand) (hbody : body.ReadsBack style free) :
    (Node.mk .whileStatement span
      [(.test, .node test), (.body, .node body)]).ReadsBack style free := by
  intro level d tail hd htail helse hfree
  rw [Node.statementText_while] at hd ⊢
  simp only [List.length_append, List.length_cons] at hd
  simp only [List.append_assoc, List.cons_append]
  refine (goesOn_statement_clause rfl rfl).trans fun origin _ => ?_
  refine (reads_condition htest (by omega)).bind fun found hfound => ?_
  refine (hbody.body (by omega) htail (fun hopen => helse (.last rfl rfl hopen)) hfree).bind
    fun inner hinner => ?_
  exact Reads.node fun _ => Node.sameStructure_mk (by simp)
    (by simp [Slot.sameStructure, hfound, hinner])

theorem readsBack_do
    {test body : Node}
    (htest : test.Plain .operand) (hbody : body.ReadsBack style (body.kind ≠ .blockStatement)) :
    (Node.mk .doWhileStatement span
      [(.body, .node body), (.test, .node test)]).ReadsBack style free := by
  intro level d tail hd htail _ _
  rw [Node.statementText_do] at hd ⊢
  simp only [List.length_append, List.length_cons] at hd
  simp only [List.append_assoc, List.cons_append, List.nil_append]
  have hgap := Node.isBlank_of_mem_gapBehind style level body
  have hname : isNameText "while".toList = true := by decide
  refine (goesOn_statement_clause rfl (body.endsName_bodyText _)).trans fun origin _ => ?_
  refine (hbody.body (by omega)
    (.of_word (Node.gapBehind_ne_nil style level body) hgap hname (by decide) rfl)
      (fun _ => ?_) fun hkind => ?_).bind fun inner hinner => ?_
  · rw [wordOf_blanks hgap, wordOf_eq (wordAt_append hname rfl)]
    decide
  · rw [Node.gapBehind, if_pos (not_not.mp hkind)]
    exact refuses_word (by decide)
  have hword : wordAt (Node.gapBehind style level body ++ ("while".toList ++
      ' ' :: '(' :: (test.text style level ++ ')' :: ';' :: tail))) =
        some ("while", ' ' :: '(' :: (test.text style level ++ ')' :: ';' :: tail)) := by
    rw [wordAt_blanks hgap, wordAt_append hname rfl]
  refine (Reads.keyword hword).bind fun _ _ => ?_
  refine (reads_condition htest (by omega)).bind fun found hfound => ?_
  refine (Reads.attempt (reads_semicolon false)).bind fun _ _ => ?_
  exact Reads.node fun _ => Node.sameStructure_mk (by simp)
    (by simp [Slot.sameStructure, hfound, hinner])

theorem readsBack_labeled
    {span' : Span} {name : String} {body : Node}
    (hname : isVariable name = true) (hbody : body.ReadsBack style free) :
    (Node.mk .labeledStatement span [(.label, .node (.identifier name span')),
      (.body, .node body)]).ReadsBack style free := by
  intro level d tail hd htail helse hfree
  rw [Node.statementText_labeled] at hd ⊢
  simp only [List.length_append, List.length_cons] at hd
  simp only [List.append_assoc, List.cons_append]
  refine (goesOn_statement_label hname).trans fun origin _ => ?_
  refine (reads_variableName hname rfl).bind fun label hlabel => ?_
  obtain ⟨span₁, rfl⟩ := hlabel
  refine (Reads.mark (markAt_closer (by decide : (':', ":") ∈ closers) _)).bind fun _ _ => ?_
  refine (hbody.inside isBlank_of_mem_space (by omega) htail
    (fun hopen => helse (.last rfl rfl hopen)) hfree).bind fun inner hinner => ?_
  have hsame : (Node.identifier name span₁).sameStructure (.identifier name span') = true :=
    sameStructure_identifier
  exact Reads.node fun _ => Node.sameStructure_mk (by simp)
    (by simp [Slot.sameStructure, hsame, hinner])

/-! ### Blocks -/

/-- The statements are read back, each in front of the lines behind it. -/
def LinesReadBack (style : Style) (ns : List Node) : Prop :=
  ∀ front n rest, ns = front ++ n :: rest →
    n.ReadsBack style (LineEndsBefore rest)

theorem LinesReadBack.behind
    {n : Node} {ns : List Node}
    (hns : LinesReadBack style (n :: ns)) :
    LinesReadBack style ns :=
  fun front m rest hsplit => hns (n :: front) m rest (by rw [hsplit, List.cons_append])

theorem rounds_linesText
    {ns : List Node}
    (hns : ∀ n ∈ ns, n.Nested)
    (hread : LinesReadBack style ns)
    (hd : 2 * (linesText style level ns).length ≤ d) :
    Rounds (fun cur => cur.nextMark != "\x7d") (depth d).statement
      (fun n found => found.sameStructure n = true) ns (linesText style level ns ++ tail)
      (linesText style level [] ++ tail) := by
  induction ns with
  | nil =>
      refine .nil fun cur hcur => ?_
      simp [Cursor.nextMark_eq, hcur, markOf_eq (markAt_linesText_nil tail)]
  | cons n ns ih =>
      have hmark : markOf (linesText style level (n :: ns) ++ tail) = "\x7d" ↔ n :: ns = [] :=
        markOf_linesText_iff hns tail
      rw [List.forall_mem_cons] at hns
      have hbehind : LinesAhead ns (linesText style level ns ++ tail) :=
        linesAhead_linesText hns.2 level tail
      rw [linesText_cons] at hd hmark ⊢
      simp only [List.length_append] at hd
      simp only [List.append_assoc] at hmark ⊢
      have hgap := isBlank_of_mem_gap style (level + 1)
      have hline : Reads (depth d).statement (gap style (level + 1) ++
          (n.statementText style (level + 1) ++ (linesText style level ns ++ tail)))
          (linesText style level ns ++ tail) fun found => found.sameStructure n = true :=
        (hread [] n ns rfl).inside hgap (by simp only [gap, List.length_cons] at hd; omega)
          hbehind.closes (fun _ => hbehind.noElse) hbehind.refuses
      refine .cons (fun cur hcur => ?_) hline ?_ (ih hns.2 hread.behind (by omega))
      · rw [Cursor.nextMark_eq, hcur]
        simpa using hmark
      · simp only [List.length_append, gap, List.length_cons]
        omega

theorem reads_block
    {ns : List Node}
    (hns : ∀ n ∈ ns, n.Nested)
    (hread : LinesReadBack style ns)
    (hd : 2 * (linesText style level ns).length ≤ d) :
    Reads (depth d).block ('\x7b' :: (linesText style level ns ++ tail)) tail fun found =>
      found.sameStructure (.mk .blockStatement span [(.body, .list ns)]) = true := by
  refine (Reads.start (skipped_of_isFresh rfl)).bind fun origin _ => ?_
  refine (Reads.mark (markAt_brace _)).bind fun _ _ => ?_
  refine (rounds_linesText hns hread hd).whileMore.bind fun body hbody => ?_
  refine (Reads.mark (markAt_linesText_nil tail)).bind fun _ _ => ?_
  have hsame : sameSequence body ns = true := by
    rw [sameSequence_iff]
    exact hbody.flip
  exact Reads.node fun _ => Node.sameStructure_mk (by simp) (by simp [Slot.sameStructure, hsame])

theorem opensMember_linesText_nil
    {cur : Cursor}
    (hcur : cur.rest = linesText style level [] ++ tail) :
    opensMember cur = false := by
  have hnext : cur.nextMark = "\x7d" := by
    rw [Cursor.nextMark_eq, hcur, markOf_eq (markAt_linesText_nil tail)]
  have hword : cur.word? = none := Cursor.word?_eq_none hcur (wordAt_linesText_nil tail)
  have hskip : skipped cur.rest = '\x7d' :: tail := by
    rw [hcur, linesText, List.flatMap_nil, List.nil_append, List.append_assoc,
      skipped_blanks (isBlank_of_mem_gap style level)]
    exact skipped_of_isFresh rfl
  have hstring : stringLength? ('\x7d' :: tail) = none := rfl
  have hnumber : numberLength? ('\x7d' :: tail) = none := rfl
  simp [opensMember, hnext, hword, hskip, hstring, hnumber]

/-- A word that starts a statement is no key. -/
theorem opensMember_word
    {cur : Cursor} {space rest : List Char} {word : String}
    (hword : word ∈ ["if", "while"])
    (hspace : ∀ c ∈ space, Text.isBlank c = true)
    (hcur : cur.rest = space ++ (word.toList ++ ' ' :: rest)) :
    opensMember cur = false := by
  have hall : ∀ word ∈ ["if", "while"], isNameText word.toList = true ∧ word ∈ statementWords := by
    decide
  obtain ⟨hname, hstatement⟩ := hall word hword
  have hfound : wordAt cur.rest = some (word, ' ' :: rest) := by
    rw [hcur, wordAt_blanks hspace, wordAt_append hname rfl]
  have hmark : cur.nextMark = "" := by
    rw [Cursor.nextMark_eq, hcur, markOf_blanks hspace, markOf, markAt_of_isNameText hname]
    rfl
  obtain ⟨next, hnext, -⟩ := Cursor.exists_word? rfl hfound
  simp [opensMember, hmark, hnext, hstatement]

theorem Grammar.Closes.continuesOnly
    {cur : Cursor}
    (htail : Closes tail) (hcur : cur.rest = tail) :
    continuesOnly cur = false := by
  have hmark : cur.nextMark ∈ ["", ";", "(", "\x7b", "\x7d"] := by
    rw [Cursor.nextMark_eq, hcur]
    exact htail.mark
  have hword : cur.nextWord ≠ "in" ∧ cur.nextWord ≠ "instanceof" := by
    have hnone := htail.word
    rw [Cursor.nextWord_eq, hcur]
    constructor
    all_goals
      intro heq
      rw [heq] at hnone
      cases hnone
  simp only [List.mem_cons, List.not_mem_nil, or_false] at hmark
  rcases hmark with hmark | hmark | hmark | hmark | hmark
  all_goals simp [Grammar.continuesOnly, hmark, hword]

/-- What reads like a method starts with a word that is no key. -/
theorem Node.MethodLike.opensMember
    {n : Node}
    (hn : n.MethodLike)
    {cur : Cursor} {space : List Char}
    (hspace : ∀ c ∈ space, Text.isBlank c = true)
    (hcur : cur.rest = space ++ (n.statementText style level ++ tail)) :
    opensMember cur = false := by
  cases hn with
  | ifThen =>
      rw [Node.statementText_ifThen, List.append_assoc] at hcur
      exact opensMember_word (by decide) hspace hcur
  | whileLoop =>
      rw [Node.statementText_while, List.append_assoc] at hcur
      exact opensMember_word (by decide) hspace hcur

/-- A value in front of a text that does not end a statement is no statement. -/
theorem Grammar.Refuses.fails_expressionStatement
    {g : Productions} {text : List Char} {origin : Cursor}
    (htail : Refuses tail) (hvalue : Ends (g.expression true) text (· = tail)) :
    Fails (expressionStatement g origin) text := by
  have hexpressions : Ends (g.expressions true) text (· = tail) := by
    refine hvalue.bind fun first rest hrest => ?_
    rw [hrest]
    have hloop : Ends (whileMore (fun cur => cur.nextMark == ",") (do
        Grammar.mark ","
        g.expression true)) tail (· = tail) := by
      refine .whileMore rfl fun cur hcur hmore => ?_
      rw [Cursor.nextMark_eq, hcur, htail.mark] at hmore
      cases hmore
    exact hloop.bind fun more rest hrest =>
      .ite (fun _ => .of_pure hrest) fun _ => .node hrest
  refine Ends.fails (hexpressions.bind fun inner rest hrest => ?_)
  rw [hrest]
  exact .of_fails htail.fails.bind

theorem readsBack_block
    {ns : List Node}
    (hns : ∀ n ∈ ns, n.Nested)
    (hread : LinesReadBack style ns)
    (htried : ∀ s ∈ ns.head?, s.TriedEnds style)
    (hkept : ¬ (Node.mk .blockStatement span [(.body, .list ns)]).LosesBlock free) :
    (Node.mk .blockStatement span [(.body, .list ns)]).ReadsBack style free := by
  intro level d tail hd htail _ hfree
  rw [Node.statementText_lines] at hd ⊢
  rw [List.length_cons] at hd
  refine goesOn_statement_brace.trans fun origin horigin => ?_
  obtain ⟨inner, hinner, hrest⟩ :=
    Cursor.exists_mark? horigin (markAt_brace (linesText style level ns ++ tail))
  have hblock : Reads (depth d).block ('\x7b' :: (linesText style level ns ++ tail)) tail
      fun found => found.sameStructure (.mk .blockStatement span [(.body, .list ns)]) = true :=
    reads_block hns hread (by omega)
  have hbraces := bracesEnd_block hns htried level span
  simp only [braceStatement, hinner]
  cases ns with
  | nil =>
      -- An empty block is an object only if an operator follows it.
      obtain ⟨after, hafter, hafterRest⟩ := Cursor.exists_mark? hrest (markAt_linesText_nil tail)
      simp only [opensMember_linesText_nil hrest, Bool.false_eq_true, if_false, hafter,
        htail.continuesOnly hafterRest]
      exact hblock
  | cons s ns =>
      cases hopens : opensMember inner with
      | false =>
          simp only [Bool.false_eq_true, if_false]
          split
          next after hclose =>
            have hmark : inner.nextMark = "\x7d" := by simp [Cursor.nextMark, hclose]
            rw [Cursor.nextMark_eq, hrest] at hmark
            cases (markOf_linesText_iff hns tail).mp hmark
          next => exact hblock
      | true =>
          simp only [if_true]
          refine Fails.either ?_ hblock
          by_cases hloses :
              (Node.mk .blockStatement span [(.body, .list (s :: ns))]).LosesBlock True
          · -- What is tried as an object gets through, but no statement may end behind it.
            have hrefuses := hfree fun hfree => hkept (hloses.mono fun _ => hfree)
            have hbehind : EndsBehind 0 (· = tail) tail :=
              .of_stops rfl (htail.stops (by rw [hrefuses.mark]; decide))
            exact hrefuses.fails_expressionStatement
              (hbraces.operation (fun _ => hbehind) true (by omega))
          · -- The text is tried as an object first, and gets stuck in the first statement.
            have hstuck (hloose : (Node.mk .blockStatement span
                [(.body, .list (s :: ns))]).LosesBlock True ∨
                  (Node.mk .blockStatement span [(.body, .list (s :: ns))]).ObjectLike) :
                EndsBehind 0 (fun _ => False) tail := by
              rcases hloose with hloose | hlike
              · exact absurd hloose hloses
              · cases hlike with
                | method hs =>
                    simp only [linesText_cons, List.append_assoc] at hrest
                    rw [hs.opensMember (isBlank_of_mem_gap style (level + 1)) hrest] at hopens
                    cases hopens
            exact .bind (.bind (Ends.fails (hbraces.operation hstuck true (by omega))))

/-! ### Loops with a head -/

/-- A part of a head has been read, or there is none. -/
def SamePart (part : Option Node) (found : Option Node) : Prop :=
  (Slot.ofOption found).sameStructure (.ofOption part) = true

theorem reads_part
    {n : Node}
    (hn : n.Plain .operand)
    {space : List Char}
    (hspace : ∀ c ∈ space, Text.isBlank c = true)
    {c : Char} {mark : String}
    (hc : (c, mark) ∈ closers) (hcomma : mark ≠ ",") (hd : 2 * (n.text style level).length < d) :
    Reads ((depth d).expressions false) (space ++ (n.text style level ++ c :: tail)) (c :: tail)
      fun found => found.sameStructure n = true := by
  have hrereads : n.Rereads style := hn.rereadsAs style
  refine .blanks hspace (.bind (skips_operation d 0)) ?_
  refine hrereads.expressions level d false _ hd (.closer hc 0 tail) ?_
  rwa [markOf_eq (markAt_closer hc tail)]

theorem reads_clause
    {part : Option Node}
    (hpart : ∀ n ∈ part, n.Plain .operand)
    {space : List Char}
    (hspace : ∀ c ∈ space, Text.isBlank c = true)
    (hd : 2 * (Node.partText style level space part).length < d) :
    Reads (clause (depth d)) (Node.partText style level space part ++ ';' :: tail) tail
      (SamePart part) := by
  have hmark := markAt_closer (by decide : (';', ";") ∈ closers) tail
  cases part with
  | none =>
      refine (Reads.hasMark hmark).bind fun _ hyes => ?_
      rw [hyes]
      exact .of_pure rfl
  | some n =>
      have hleading := Node.Rereads.leading (hpart n rfl |>.rereadsAs style) level
      rw [Node.partText, List.length_append] at hd
      rw [Node.partText, List.append_assoc]
      refine (Reads.hasMark_false ?_).bind fun _ hno => ?_
      · rw [markOf_blanks hspace]
        exact hleading.markOf_ne rfl (by decide)
      rw [hno]
      refine (reads_part (hpart n rfl) hspace (by decide : (';', ";") ∈ closers) (by decide)
        (by omega)).bind fun found hfound => ?_
      refine (Reads.mark hmark).bind fun _ _ => ?_
      exact .of_pure hfound

theorem reads_update
    {part : Option Node}
    (hpart : ∀ n ∈ part, n.Plain .operand)
    (hd : 2 * (Node.partText style level [' '] part).length < d)
    {cur : Cursor}
    (hcur : cur.rest = Node.partText style level [' '] part ++ ')' :: tail) :
    Reads (if cur.nextMark == ")" then pure none else some <$> (depth d).expressions false)
      (Node.partText style level [' '] part ++ ')' :: tail) (')' :: tail) (SamePart part) := by
  cases part with
  | none =>
      have hnext : cur.nextMark = ")" := by
        rw [Cursor.nextMark_eq, hcur]
        exact markOf_eq (markAt_closer (by decide : (')', ")") ∈ closers) tail)
      simp only [hnext, BEq.rfl, if_true]
      exact .of_pure rfl
  | some n =>
      have hleading := Node.Rereads.leading (hpart n rfl |>.rereadsAs style) level
      rw [Node.partText, List.append_assoc] at hcur ⊢
      rw [Node.partText, List.length_append] at hd
      have hnext : cur.nextMark ≠ ")" := by
        rw [Cursor.nextMark_eq, hcur, markOf_blanks isBlank_of_mem_space]
        exact hleading.markOf_ne rfl (by decide)
      simp only [beq_iff_eq, hnext, if_false]
      exact .map (reads_part (hpart n rfl) isBlank_of_mem_space
        (by decide : (')', ")") ∈ closers) (by decide) (by omega))

/-- The head of a counting loop that starts with an expression declares nothing. -/
theorem wordOf_loopStart {init : Option Node} (hinit : ∀ n ∈ init, n.LoopStart) :
    isFresh (Node.partText style level [] init ++ ';' :: tail) = true ∧
      wordOf (Node.partText style level [] init ++ ';' :: tail) ∉ ["var", "let", "const"] := by
  cases init with
  | none =>
      refine ⟨rfl, ?_⟩
      rw [Node.partText, List.nil_append, wordOf, wordAt_of_stop rfl (by decide) (by decide)]
      decide
  | some n =>
      have hopens := (Node.Rereads.leading ((hinit n rfl).plain.rereadsAs style) level).opens
        (';' :: tail) rfl
      rw [Node.partText, List.nil_append]
      refine ⟨hopens.fresh, fun hmem => ?_⟩
      have hall : ∀ word ∈ ["var", "let", "const"], ¬(word = "" ∨ word ∈ openingWords ∨
          isVariable word = true) := by decide +kernel
      exact hall _ hmem hopens.word

/-- Behind the first expression of the head of a loop stands no word. -/
theorem ends_loopStart
    {init : Option Node}
    (hinit : ∀ n ∈ init, n.LoopStart) (hd : 2 * (Node.partText style level [] init).length < d) :
    Ends (either (depth d).pattern (target (depth d)))
      (Node.partText style level [] init ++ ';' :: tail) fun rest => wordOf rest = "" := by
  cases init with
  | none =>
      exact .either (.of_fails (fails_pattern_semicolon d)) (.of_fails fails_primary_semicolon.bind)
  | some n =>
      obtain ⟨m, rest, hm, htext, hrest⟩ := (hinit n rfl).exists_simple style level
      have hloop := Node.LoopStart.loopRest hrest tail
      rw [Node.partText, List.nil_append, htext] at hd ⊢
      rw [List.length_append] at hd
      rw [List.append_assoc]
      refine .either ?_ ?_
      · refine (hm.ends_pattern (by omega) (hloop.follows _) hloop.stops).imp ?_
        rintro _ rfl
        exact hloop.word
      · refine ((hm.chains (by omega)).ends_target (hloop.follows _) hloop.stops).imp ?_
        rintro _ rfl
        exact hloop.word

/-- The head of a counting loop is no head of a loop over values: neither `of` nor `in` stands
behind its first expression. -/
theorem fails_valueLoopHead
    {init : Option Node}
    (hinit : ∀ n ∈ init, n.LoopStart) (hd : 2 * (Node.partText style level [] init).length < d) :
    Fails (valueLoopHead (depth d))
      (' ' :: '(' :: (Node.partText style level [] init ++ ';' :: tail)) := by
  obtain ⟨hfresh, hword⟩ := @wordOf_loopStart style level tail init hinit
  have hmark : markAt (' ' :: '(' :: (Node.partText style level [] init ++ ';' :: tail)) =
      some ("(", Node.partText style level [] init ++ ';' :: tail) := by
    rw [markAt_space, markAt_open]
  refine .after (Reads.mark hmark) fun _ _ => ?_
  refine .after (Reads.start (skipped_of_isFresh hfresh)) fun cur hcur => ?_
  have hdeclares : ["var", "let", "const"].contains cur.nextWord = false := by
    rw [Cursor.nextWord_eq, hcur]
    simpa using hword
  have hopen : cur.nextMark ≠ "(" := by
    have hall : ∀ mark ∈ ["", ";"], mark ≠ "(" := by decide
    rw [Cursor.nextMark_eq, hcur]
    exact hall _ (markOf_loopStart hinit)
  simp only [hdeclares, Bool.false_eq_true, if_false, beq_iff_eq, hopen]
  refine Ends.fails ((ends_loopStart hinit hd).bind fun left rest hrest => ?_)
  refine .after (Reads.hasKeyword_false (by rw [hrest]; decide)) fun found hfound => ?_
  rw [hfound]
  exact .of_fails (fails_keyword (by rw [hrest]; decide)).bind

theorem reads_countingLoopHead
    {init test update : Option Node}
    (hinit : ∀ n ∈ init, n.LoopStart)
    (htest : ∀ n ∈ test, n.Plain .operand)
    (hupdate : ∀ n ∈ update, n.Plain .operand)
    (hd : 2 * ((Node.partText style level [] init).length +
      ((Node.partText style level [' '] test).length +
        (Node.partText style level [' '] update).length)) < d) :
    Reads (countingLoopHead (depth d))
      (' ' :: '(' :: (Node.partText style level [] init ++
        ';' :: (Node.partText style level [' '] test ++
          ';' :: (Node.partText style level [' '] update ++ ')' :: tail)))) tail
      fun found => SamePart init found.1 ∧ SamePart test found.2.1 ∧ SamePart update found.2.2 := by
  have hmark : markAt (' ' :: '(' :: (Node.partText style level [] init ++
      ';' :: (Node.partText style level [' '] test ++
        ';' :: (Node.partText style level [' '] update ++ ')' :: tail)))) =
      some ("(", Node.partText style level [] init ++
        ';' :: (Node.partText style level [' '] test ++
          ';' :: (Node.partText style level [' '] update ++ ')' :: tail))) := by
    rw [markAt_space, markAt_open]
  have hstart := @wordOf_loopStart style level (Node.partText style level [' '] test ++
    ';' :: (Node.partText style level [' '] update ++ ')' :: tail)) init hinit
  refine (Reads.mark hmark).bind fun _ _ => ?_
  refine (Reads.start (skipped_of_isFresh hstart.1)).bind fun cur hcur => ?_
  have hword : cur.nextWord ≠ "var" ∧ cur.nextWord ≠ "let" ∧ cur.nextWord ≠ "const" := by
    rw [Cursor.nextWord_eq, hcur]
    simpa using hstart.2
  have hdeclares : (["var", "const"].contains cur.nextWord ||
      (cur.nextWord == "let" && declaresByLet cur)) = false := by
    simp [hword]
  simp only [hdeclares, Bool.false_eq_true, if_false]
  have hplain : ∀ n ∈ init, n.Plain .operand := fun n hn => (hinit n hn).plain
  refine (reads_clause hplain (by simp) (by omega)).bind fun first hfirst => ?_
  refine (reads_clause htest isBlank_of_mem_space (by omega)).bind fun second hsecond => ?_
  have hclose : ∀ third, SamePart update third → Reads (do
      mark ")"
      pure (first, second, third)) (')' :: tail) tail
      fun found => SamePart init found.1 ∧ SamePart test found.2.1 ∧ SamePart update found.2.2 :=
    fun third hthird => (Reads.mark (markAt_closer (by decide : (')', ")") ∈ closers) tail)).bind
      fun _ _ => .of_pure ⟨hfirst, hsecond, hthird⟩
  refine .get fun cur hcur => ?_
  have hread := reads_update hupdate (by omega : _ < d) hcur
  split at hread
  next hnone =>
    rw [if_pos hnone]
    exact hread.bind hclose
  next hsome =>
    rw [if_neg hsome]
    exact hread.bind hclose

theorem readsBack_for
    {init test update : Option Node} {body : Node}
    (hinit : ∀ n ∈ init, n.LoopStart)
    (htest : ∀ n ∈ test, n.Plain .operand)
    (hupdate : ∀ n ∈ update, n.Plain .operand)
    (hbody : body.ReadsBack style free) :
    (Node.mk .forStatement span [(.init, .ofOption init), (.test, .ofOption test),
      (.update, .ofOption update), (.body, .node body)]).ReadsBack style free := by
  intro level d tail hd htail helse hfree
  rw [Node.statementText_for fun n hn => (hinit n hn).kind_ne] at hd ⊢
  simp only [List.length_append, List.length_cons] at hd
  simp only [List.append_assoc, List.cons_append]
  refine (goesOn_statement_clause rfl rfl).trans fun origin _ => ?_
  refine (Reads.hasKeyword_false ?_).bind fun _ _ => ?_
  · rw [wordOf_space, wordOf, wordAt_of_stop rfl (by decide) (by decide)]
    decide
  refine (fails_valueLoopHead hinit (by omega)).attempt.bind fun _ hnone => ?_
  rw [hnone]
  refine (reads_countingLoopHead hinit htest hupdate (by omega)).bind fun head hhead => ?_
  obtain ⟨first, second, third⟩ := head
  refine (hbody.body (by omega) htail (fun hopen => helse (.last rfl ?_ hopen)) hfree).bind
    fun inner hinner => ?_
  · cases init <;> cases test <;> cases update <;> rfl
  obtain ⟨hfirst, hsecond, hthird⟩ := hhead
  exact Reads.node fun _ => Node.sameStructure_mk (by simp)
    (by simpa [Slot.sameStructure, hinner] using ⟨hfirst, hsecond, hthird⟩)

/-! ## Nested statements -/

/-- How a statement is read that loses no block: back as a statement, back as a block if it is one,
and not far where an object is tried. -/
structure Node.Readings (style : Style) (n : Node) : Prop where
  back : ∀ free, ¬ n.LosesBlock free → n.ReadsBack style free
  block : ¬ n.LosesBlock False → n.ReadsBlock style
  tried : ¬ n.LosesBlock False → n.TriedEnds style

theorem readings_empty : (Node.mk .emptyStatement span []).Readings style where
  back _ _ _ _ _ _ _ _ _ := reads_statement_empty
  block _ := nofun
  tried _ := {
    value := fun _ _ _ _ _ _ => .semicolon
    member := fun _ _ _ _ _ _ => .of_mark (by decide : (';', ";") ∈ statementMarks) [] }

theorem readings_call {e : Node} (he : e.Simple) (hcall : e.kind = .callExpression) :
    (Node.mk .expressionStatement span [(.expression, .node e)]).Readings style where
  back _ _ level _ tail hd _ _ _ := (he.rereads style).reads_statement span level tail hd
  block _ := nofun
  tried _ := {
    value := fun _ _ level _ hQ _ => valueEnds_call hQ level he
    member := fun _ _ level _ hQ _ => memberEnds_call hQ level he hcall }

/-- A statement that a word starts is no value. -/
theorem Node.TriedEnds.of_clause
    {n : Node} {word : String}
    (hword : word ∈ clauseWords)
    (htext : ∀ level, ∃ after, n.statementText style level = word.toList ++ after ∧ after ≠ [] ∧
      endsName after = true)
    (hmember : ∀ (need : Nat) (Q : List Char → Prop) (level : Nat) (tail : List Char),
      MemberEnd Q → (n.MemberLike → Q tail) →
        MemberEnds need Q (n.statementText style level) tail) :
    n.TriedEnds style where
  value _ _ level _ _ _ := by
    obtain ⟨after, htext, hne, hends⟩ := htext level
    rw [htext]
    exact .of_clause hword hne hends
  member need Q level tail hQ hloose := hmember need Q level tail hQ fun hlike =>
    (hloose (.inr hlike)).here

theorem readings_ifThen
    {test consequent : Node}
    (htest : test.Plain .operand)
    (hconsequent : consequent.Nested)
    (hread : consequent.Readings style) :
    (Node.mk .ifStatement span [(.test, .node test), (.consequent, .node consequent),
      (.alternate, .absent)]).Readings style where
  back free hkept :=
    readsBack_ifThen htest (hread.back free fun hloses => hkept (.consequent rfl rfl rfl hloses))
  block _ := nofun
  tried hkept := by
    refine .of_clause (by decide : "if" ∈ clauseWords)
      (fun level => ⟨_, Node.statementText_ifThen, by simp, rfl⟩)
      fun need Q level tail hQ hlike => ?_
    exact memberEnds_ifThen hQ level htest hconsequent
      (hread.block fun hloses => hkept (.consequent rfl rfl rfl hloses))
      fun hmethod => hlike (.method hmethod)

theorem readings_ifElse
    {test consequent alternate : Node}
    (htest : test.Plain .operand)
    (hconsequent : consequent.Nested)
    (hclosed : ¬ consequent.EndsOpen)
    (hread : consequent.Readings style)
    (hread' : alternate.Readings style) :
    (Node.mk .ifStatement span [(.test, .node test), (.consequent, .node consequent),
      (.alternate, .node alternate)]).Readings style where
  back free hkept :=
    readsBack_ifElse htest (hread.back _ fun hloses => hkept (.beforeElse rfl rfl rfl hloses))
      (hread'.back free fun hloses => hkept (.last rfl rfl hloses)) hclosed
  block _ := nofun
  tried hkept := by
    refine .of_clause (by decide : "if" ∈ clauseWords)
      (fun level => ⟨_, Node.statementText_ifElse, by simp, rfl⟩) fun need Q level tail hQ _ => ?_
    exact memberEnds_ifElse hQ level htest hconsequent
      (hread.block fun hloses => hkept (.beforeElse rfl rfl rfl (hloses.mono False.elim)))

theorem readings_while
    {test body : Node}
    (htest : test.Plain .operand) (hbody : body.Nested) (hread : body.Readings style) :
    (Node.mk .whileStatement span [(.test, .node test), (.body, .node body)]).Readings style where
  back free hkept :=
    readsBack_while htest (hread.back free fun hloses => hkept (.last rfl rfl hloses))
  block _ := nofun
  tried hkept := by
    refine .of_clause (by decide : "while" ∈ clauseWords)
      (fun level => ⟨_, Node.statementText_while, by simp, rfl⟩)
      fun need Q level tail hQ hlike => ?_
    exact memberEnds_while hQ level htest hbody
      (hread.block fun hloses => hkept (.last rfl rfl hloses))
      fun hmethod => hlike (.method hmethod)

theorem readings_do
    {test body : Node}
    (htest : test.Plain .operand) (hbody : body.Nested) (hread : body.Readings style) :
    (Node.mk .doWhileStatement span [(.body, .node body), (.test, .node test)]).Readings style where
  back _ hkept :=
    readsBack_do htest (hread.back _ fun hloses => hkept (.doBody rfl rfl hloses))
  block _ := nofun
  tried _ := by
    refine .of_clause (by decide : "do" ∈ clauseWords) (fun level => ⟨_, Node.statementText_do,
      by simp [body.bodyText_ne_nil], body.endsName_bodyText _⟩) fun need Q level tail hQ _ => ?_
    exact memberEnds_do hQ level hbody

theorem readings_for
    {init test update : Option Node} {body : Node}
    (hinit : ∀ n ∈ init, n.LoopStart)
    (htest : ∀ n ∈ test, n.Plain .operand)
    (hupdate : ∀ n ∈ update, n.Plain .operand)
    (hread : body.Readings style) :
    (Node.mk .forStatement span [(.init, .ofOption init), (.test, .ofOption test),
      (.update, .ofOption update), (.body, .node body)]).Readings style where
  back free hkept := by
    refine readsBack_for hinit htest hupdate
      (hread.back free fun hloses => hkept (.last rfl ?_ hloses))
    cases init <;> cases test <;> cases update <;> rfl
  block _ := nofun
  tried _ := by
    refine .of_clause (by decide : "for" ∈ clauseWords) (fun level =>
      ⟨_, Node.statementText_for fun n hn => (hinit n hn).kind_ne, by simp, rfl⟩)
        fun need Q level tail hQ _ => ?_
    exact memberEnds_for hQ level hinit

theorem readings_labeled
    {span' : Span} {name : String} {body : Node}
    (hname : isVariable name = true) (hread : body.Readings style) :
    (Node.mk .labeledStatement span [(.label, .node (.identifier name span')),
      (.body, .node body)]).Readings style where
  back free hkept :=
    readsBack_labeled hname (hread.back free fun hloses => hkept (.last rfl rfl hloses))
  block _ := nofun
  tried hkept := {
    value := fun _ _ level _ hQ _ => valueEnds_labeled hQ level hname
    member := fun need Q level tail hQ hloose => by
      have htried := hread.tried fun hloses => hkept (.last rfl rfl hloses)
      refine memberEnds_labeled hQ level hname (htried.value need Q level tail hQ fun hbody => ?_)
      rcases hbody with hloses | hlike
      · exact hloose (.inl (.last rfl rfl hloses))
      · exact hloose (.inr (.labeled hlike)) }

theorem LinesReadBack.of_readings
    {ns : List Node}
    (hread : ∀ n ∈ ns, n.Readings style) (hkept : ¬ LinesLoseBlock ns) :
    LinesReadBack style ns :=
  fun front n rest hsplit => (hread n (by simp [hsplit])).back _ fun hloses =>
    hkept ⟨front, n, rest, hsplit, hloses⟩

theorem readings_block
    {ns : List Node}
    (hns : ∀ n ∈ ns, n.Nested) (hread : ∀ n ∈ ns, n.Readings style) :
    (Node.mk .blockStatement span [(.body, .list ns)]).Readings style := by
  have hkeptLines {free : Prop}
      (hkept : ¬ (Node.mk .blockStatement span [(.body, .list ns)]).LosesBlock free) :
      ¬ LinesLoseBlock ns := by
    rintro ⟨front, n, rest, rfl, hloses⟩
    exact hkept (.line hloses)
  have hfirst (hkept : ¬ LinesLoseBlock ns) : ∀ s ∈ ns.head?, s.TriedEnds style := by
    intro s hs
    obtain ⟨rest, rfl⟩ := List.head?_eq_some_iff.mp hs
    exact (hread s List.mem_cons_self).tried fun hloses =>
      hkept ⟨[], s, rest, rfl, hloses.mono False.elim⟩
  refine ⟨fun free hkept => ?_, fun hkept _ level d tail hd => ?_, fun hkept => ⟨?_, ?_⟩⟩
  · exact readsBack_block hns (.of_readings hread (hkeptLines hkept)) (hfirst (hkeptLines hkept))
      hkept
  · rw [Node.statementText_lines] at hd ⊢
    rw [List.length_cons] at hd
    exact reads_block hns (.of_readings hread (hkeptLines hkept)) (by omega)
  · intro need Q level tail hQ hloose
    rw [Node.statementText_lines]
    exact (bracesEnd_block hns (hfirst (hkeptLines hkept)) level _).valueEnds hloose
  · intro need Q level tail hQ _
    rw [Node.statementText_lines]
    exact .of_mark (by decide : ('\x7b', "\x7b") ∈ statementMarks) _

theorem Node.not_dangles_of_child
    {n c : Node}
    (step : Step)
    (hn : ¬ n.Dangles) (hnests : n.kind.nests step.field = true) (hc : n.childAt? step = some c) :
    ¬ c.Dangles :=
  fun hdangles => hn (.inside hnests hc hdangles)

/-- A nested statement in which no `else` belongs to another `if` and that loses no block is read
back. -/
theorem Node.Nested.readings
    {n : Node}
    (hn : n.Nested) (hdangles : ¬ n.Dangles)
    (style : Style) :
    n.Readings style := by
  induction hn with
  | empty => exact readings_empty
  | call he hcall => exact readings_call he hcall
  | block hns ih =>
      refine readings_block hns fun n hn => ih n hn ?_
      obtain ⟨i, hi⟩ := List.mem_iff_getElem?.mp hn
      exact Node.not_dangles_of_child ⟨.body, some i⟩ hdangles rfl hi
  | ifThen htest hconsequent ih =>
      exact readings_ifThen htest hconsequent
        (ih (Node.not_dangles_of_child ⟨.consequent, none⟩ hdangles rfl rfl))
  | ifElse htest hconsequent _ ih ih' =>
      exact readings_ifElse htest hconsequent (fun hopen => hdangles (.here rfl rfl rfl hopen))
        (ih (Node.not_dangles_of_child ⟨.consequent, none⟩ hdangles rfl rfl))
        (ih' (Node.not_dangles_of_child ⟨.alternate, none⟩ hdangles rfl rfl))
  | whileLoop htest hbody ih =>
      exact readings_while htest hbody
        (ih (Node.not_dangles_of_child ⟨.body, none⟩ hdangles rfl rfl))
  | doLoop htest hbody ih =>
      exact readings_do htest hbody
        (ih (Node.not_dangles_of_child ⟨.body, none⟩ hdangles rfl rfl))
  | forLoop hinit htest hupdate _ ih =>
      exact readings_for hinit htest hupdate
        (ih (Node.not_dangles_of_child ⟨.body, none⟩ hdangles rfl rfl))
  | labeled hname _ ih =>
      exact readings_labeled hname
        (ih (Node.not_dangles_of_child ⟨.body, none⟩ hdangles rfl rfl))

end Graft
