import Graft.Proofs.Reprint.Expressions

/-!
# Printed programs read back

A program is read statement by statement, each from its first token on.  An expression that stands
as a statement is read back, whether the printer puts it in parentheses or not: the first token of
its text starts no other statement.
-/

namespace Graft

open Grammar

variable {style : Style} {d level : Nat} {span : Span} {tail : List Char}

/-! ## Texts -/

/-- The text of a node as a statement. -/
def Node.statementText (style : Style) (level : Nat) (n : Node) : List Char :=
  (n.printed style).statement.chars style level

/-- Statements on lines of their own. -/
def lineTexts : List (List Char) → List Char
  | [] => []
  | text :: texts => text ++ texts.flatMap fun text => '\n' :: text

theorem length_le_lineTexts
    {text : List Char} {texts : List (List Char)}
    (htext : text ∈ texts) :
    text.length ≤ (lineTexts texts).length := by
  cases texts with
  | nil => cases htext
  | cons first texts =>
      rw [lineTexts, List.length_append]
      rcases List.mem_cons.mp htext with rfl | hrest
      · omega
      · have hlength : ('\n' :: text).length ≤ (texts.flatMap fun text => '\n' :: text).length :=
          (List.sublist_flatten_of_mem (List.mem_map_of_mem hrest)).length_le
        rw [List.length_cons] at hlength
        omega

theorem Doc.chars_joinWith_newline (docs : List Doc) :
    (Doc.joinWith Doc.newline docs).chars style 0 = lineTexts (docs.map (Doc.chars style 0)) := by
  have hindent : style.indentationChars 0 = [] := by
    simp [Style.indentationChars]
  induction docs with
  | nil => rfl
  | cons doc docs ih =>
      cases docs with
      | nil => simp [Doc.joinWith, lineTexts]
      | cons next docs => simpa [Doc.joinWith, lineTexts, hindent] using ih

theorem Node.toList_print_program (style : Style) (ns : List Node) :
    ((Node.mk .program span [(.body, .list ns)]).print style).toList =
      lineTexts (ns.map (Node.statementText style 0)) := by
  have hlayout : (Node.mk .program span [(.body, .list ns)]).layout style =
      Doc.joinWith Doc.newline ((printedNodes style ns).map Printed.statement) := rfl
  rw [Node.print, hlayout, Doc.toList_render, Doc.chars_joinWith_newline, printedNodes_eq,
    List.map_map, List.map_map]
  rfl

theorem Node.toList_print_statement
    {n : Node}
    (hstatement : n.kind.isStatement = true) (hraw : n.kind ≠ .raw) (hprogram : n.kind ≠ .program)
    (style : Style) :
    (n.print style).toList = n.statementText style 0 := by
  rw [Node.print, Doc.toList_render, Node.layout, if_neg hprogram,
    if_pos (by simp [hstatement, hraw])]
  rfl

namespace Grammar

/-! ## Statements in a row -/

/-- A statement may start here. -/
structure Begins (text : List Char) : Prop where
  fresh : isFresh text = true
  head : ∃ c rest, text = c :: rest ∧ c ≠ '#'

theorem Begins.ne_nil {text : List Char} (htext : Begins text) : text ≠ [] := by
  obtain ⟨c, rest, rfl, -⟩ := htext.head
  simp

variable {g : Productions}

theorem skips_statement : Skips (statement g) := .bind .operandStart

theorem skipToOperand_blank
    {c : Char}
    (hc : Text.isBlank c = true)
    (place : Place) (rest : List Char) :
    Cursor.skipToOperand ⟨place, c :: rest⟩ = Cursor.skipToOperand ⟨place.after c, rest⟩ :=
  skipFrom_blank hc true place rest

/-- The reading of a program goes on where a statement starts. -/
theorem not_atEnd_of_begins
    {text : List Char}
    (htext : Begins text)
    {cur : Cursor}
    (hcur : cur.rest = text ∨ cur.rest = '\n' :: text) :
    (!cur.skipToOperand.atEnd) = true := by
  have hhere : ∀ cur : Cursor, cur.rest = text → (!cur.skipToOperand.atEnd) = true := by
    intro cur hcur
    rw [Cursor.skipToOperand_of_isFresh (hcur ▸ htext.fresh)]
    simpa [Cursor.atEnd, hcur] using htext.ne_nil
  rcases hcur with hcur | hcur
  · exact hhere cur hcur
  · obtain ⟨place, rest⟩ := cur
    obtain rfl : rest = '\n' :: text := hcur
    rw [skipToOperand_blank rfl]
    exact hhere _ rfl

/-- The texts of some statements, each read back in front of what follows it. -/
def ReadsLines (g : Productions) (entries : List (List Char × Node)) : Prop :=
  ∀ front entry rest, entries = front ++ entry :: rest →
    (∀ tail, Begins (entry.1 ++ tail)) ∧
      Reads g.statement (entry.1 ++ (rest.map Prod.fst).flatMap fun text => '\n' :: text)
        ((rest.map Prod.fst).flatMap fun text => '\n' :: text)
        fun found => found.sameStructure entry.2 = true

theorem ReadsLines.behind
    {entry : List Char × Node} {entries : List (List Char × Node)}
    (hentries : ReadsLines g (entry :: entries)) :
    ReadsLines g entries := by
  intro front other rest hsplit
  exact hentries (entry :: front) other rest (by rw [hsplit, List.cons_append])

theorem ReadsLines.rounds
    {entries : List (List Char × Node)}
    (hskips : Skips g.statement) (hentries : ReadsLines g entries) :
    Rounds (fun cur => !cur.skipToOperand.atEnd) g.statement
      (fun n found => found.sameStructure n = true) (entries.map Prod.snd)
      ((entries.map Prod.fst).flatMap fun text => '\n' :: text) [] := by
  induction entries with
  | nil =>
      refine .nil fun cur hcur => ?_
      rw [Cursor.skipToOperand_of_isFresh (by rw [hcur]; rfl)]
      simp [Cursor.atEnd, hcur]
  | cons entry entries ih =>
      obtain ⟨hbegins, hread⟩ := hentries [] entry entries rfl
      refine .cons (fun cur hcur => not_atEnd_of_begins (hbegins _) (.inr hcur))
        (.blank hskips rfl hread) ?_ (ih hentries.behind)
      simp only [List.map_cons, List.flatMap_cons, List.cons_append, List.length_cons,
        List.length_append]
      omega

theorem reads_interpreterLine
    {text : List Char}
    (hfresh : isFresh text = true) (hhead : text.head? ≠ some '#') :
    Reads interpreterLine text text (· = []) := by
  refine (Reads.start (skipped_of_isFresh hfresh)).bind fun origin horigin => ?_
  have hline : startsWith origin.rest "#!" = false := by
    rw [horigin]
    cases text with
    | nil => rfl
    | cons c rest =>
        have hc : c ≠ '#' := by simpa using hhead
        simp [startsWith, List.isPrefixOf, hc.symm]
  simp only [hline, Bool.false_eq_true, if_false]
  exact .of_pure rfl

/-- A program is read back if its statements are. -/
theorem reads_program
    {entries : List (List Char × Node)}
    (hskips : Skips g.statement) (hentries : ReadsLines g entries) :
    Reads (program g) (lineTexts (entries.map Prod.fst)) [] fun root =>
      ∃ span body, root = .mk .program span [(.body, .list body)] ∧
        sameSequence body (entries.map Prod.snd) = true := by
  have hstart : isFresh (lineTexts (entries.map Prod.fst)) = true ∧
      (lineTexts (entries.map Prod.fst)).head? ≠ some '#' := by
    cases entries with
    | nil => exact ⟨rfl, by simp [lineTexts]⟩
    | cons entry entries =>
        have hbegins := (hentries [] entry entries rfl).1
          ((entries.map Prod.fst).flatMap fun text => '\n' :: text)
        obtain ⟨c, rest, hchars, hc⟩ := hbegins.head
        refine ⟨hbegins.fresh, ?_⟩
        rw [List.map_cons, lineTexts, hchars]
        simpa using hc
  have hrounds : Rounds (fun cur => !cur.skipToOperand.atEnd) g.statement
      (fun n found => found.sameStructure n = true) (entries.map Prod.snd)
      (lineTexts (entries.map Prod.fst)) [] := by
    cases entries with
    | nil => exact ReadsLines.rounds hskips hentries
    | cons entry entries =>
        obtain ⟨hbegins, hread⟩ := hentries [] entry entries rfl
        refine .cons (fun cur hcur => not_atEnd_of_begins (hbegins _) (.inl hcur)) hread ?_
          (hentries.behind.rounds hskips)
        have hlength := List.length_pos_of_ne_nil (hbegins []).ne_nil
        rw [List.append_nil] at hlength
        rw [List.map_cons, lineTexts, List.length_append]
        omega
  refine .get fun cur _ => ?_
  refine (reads_interpreterLine hstart.1 hstart.2).bind fun head hhead => ?_
  refine hrounds.whileMore.bind fun body hbody => ?_
  refine .get fun stop hstop => ?_
  have hend : (stop.advance stop.rest.length).rest = [] := by simp [hstop]
  refine .set hend ?_
  refine Reads.node fun span => ⟨span, head ++ body, rfl, ?_⟩
  rw [hhead, List.nil_append, sameSequence_iff]
  exact hbody.flip

/-! ## Expressions as statements -/

theorem reads_semicolon (afterOperand : Bool) :
    Reads (semicolon afterOperand) (';' :: tail) tail fun _ => True := by
  refine .get fun cur hcur => ?_
  have hend : cur.automaticEnd? afterOperand = none :=
    Cursor.automaticEnd?_eq_none hcur rfl (by decide) (by decide) rfl rfl afterOperand
  simp only [hend]
  exact Reads.mark (markAt_closer (by decide) tail)

theorem reads_expressionStatement
    {text : List Char} {e : Node}
    (origin : Cursor)
    (hread : Reads (g.expressions true) (text ++ ';' :: tail) (';' :: tail)
      fun found => found.sameStructure e = true) :
    Reads (expressionStatement g origin) (text ++ ';' :: tail) tail fun found =>
      found.sameStructure (.mk .expressionStatement span [(.expression, .node e)]) = true := by
  refine hread.bind fun inner hinner => ?_
  refine (reads_semicolon true).bind fun _ _ => ?_
  exact Reads.node fun _ => Node.sameStructure_mk (by simp) (by simp [Slot.sameStructure, hinner])

/-- Words that may start a declaration. -/
def declarationWords : List String :=
  ["var", "const", "let", "function", "async", "class", "using", "await"]

theorem declaration?_eq_none
    {origin after : Cursor} {word : String}
    (hfound : origin.word? = some (word, after))
    (hword : word ∉ declarationWords)
    (hmark : origin.nextMark ≠ "@") :
    declaration? g origin = pure none := by
  simp only [declarationWords, List.mem_cons, List.not_mem_nil, or_false, not_or] at hword
  have hnext : origin.nextWord = word := by simp [Cursor.nextWord, hfound]
  have hfunction : declaresFunction origin = false := by
    unfold declaresFunction
    rw [hfound]
    split <;> simp_all
  have hclass : declaresClass origin = false := by
    unfold declaresClass
    rw [hfound]
    split <;> simp_all
  have husing : declaresUsing origin = false := by
    unfold declaresUsing
    rw [hfound]
    split <;> simp_all
  simp [declaration?, hnext, hword, hfunction, hclass, husing, hmark]

theorem word_ne_empty
    {text after : List Char} {word : String}
    (hword : wordAt text = some (word, after)) :
    word ≠ "" := by
  rw [wordAt, Option.map_eq_some_iff] at hword
  obtain ⟨n, hn, hpair⟩ := hword
  obtain ⟨rfl, -⟩ := Prod.mk.inj hpair
  have hn' : n ≠ 0 ∧ skipped text ≠ [] := by
    unfold nameLength? at hn
    split at hn
    next => cases hn
    next heq =>
      split at hn
      next => cases hn
      next =>
        split at hn
        next => cases hn
        next hzero =>
          cases hn
          exact ⟨hzero, by simp [heq]⟩
  intro hempty
  have htake : (skipped text).take n = [] := by
    rw [← String.toList_ofList (l := (skipped text).take n), hempty]
    rfl
  rcases List.take_eq_nil_iff.mp htake with hzero | hnil
  · exact hn'.1 hzero
  · exact hn'.2 hnil

/-- A statement that starts like an operand and with no label is an expression. -/
theorem reads_statement_expression
    {text : List Char} {e : Node}
    (hopens : Opens (text ++ ';' :: tail))
    (hlabel : NoLabel (text ++ ';' :: tail))
    (hread : Reads (g.expressions true) (text ++ ';' :: tail) (';' :: tail)
      fun found => found.sameStructure e = true) :
    Reads (statement g) (text ++ ';' :: tail) tail fun found =>
      found.sameStructure (.mk .expressionStatement span [(.expression, .node e)]) = true := by
  refine (Reads.operandStart hopens.fresh).bind fun origin horigin => ?_
  have hmark : origin.nextMark ∈ openingMarks := by
    rw [Cursor.nextMark_eq, horigin]
    exact hopens.mark
  cases hfound : origin.word? with
  | none =>
      have hother : ∀ mark ∈ openingMarks, mark ≠ "\x7b" ∧ mark ≠ ";" ∧ mark ≠ "@" := by decide
      obtain ⟨hbrace, hempty, hat⟩ := hother _ hmark
      simp only [beq_iff_eq, hbrace, hempty, hat, if_false]
      exact reads_expressionStatement origin hread
  | some found =>
      obtain ⟨word, after⟩ := found
      have hat : origin.nextMark ≠ "@" := by
        intro heq
        rw [heq] at hmark
        exact absurd hmark (by decide)
      have hwordAt : wordAt (text ++ ';' :: tail) = some (word, after.rest) := by
        rw [← horigin, ← Cursor.word?_eq, hfound]
        rfl
      have hcolon : (after.nextMark == ":") = false := by
        rw [Cursor.nextMark_eq]
        simpa using hlabel word after.rest hwordAt
      have hword : word ∈ openingWords ∨ isVariable word = true := by
        have hword := hopens.word
        rw [wordOf_eq hwordAt] at hword
        refine hword.resolve_left ?_
        exact word_ne_empty hwordAt
      have hdeclares : word ∉ declarationWords := by
        intro hmem
        rcases hword with hword | hword
        · have hall : ∀ word ∈ openingWords, word ∉ declarationWords := by decide
          exact hall word hword hmem
        · have hall : ∀ word ∈ declarationWords, isVariable word = false := by decide +kernel
          rw [hall word hmem] at hword
          contradiction
      show GoesOn (wordStatement g origin word after) _ _ _ _
      unfold wordStatement
      simp only [hcolon, Bool.and_false, Bool.false_eq_true, if_false,
        declaration?_eq_none hfound hdeclares hat, pure_bind]
      split
      all_goals first
        | exact reads_expressionStatement origin hread
        | exact absurd hword (by decide +kernel)

end Grammar

/-- An expression as a statement, in parentheses if its text starts like another statement. -/
theorem Node.statementText_expression
    (style : Style) (level : Nat) (span : Span) (e : Node) :
    (Node.mk .expressionStatement span [(.expression, .node e)]).statementText style level =
      (if Text.opensOtherwise (e.text style level) then '(' :: (e.text style level ++ [')'])
      else e.text style level) ++ [';'] := by
  have hchars := Parts.chars_expressionStatement
    ⟨style, .mk .expressionStatement span [(.expression, .node e)],
      printedSlots style [(.expression, .node e)]⟩ style level
  have hinner : ((e.printed style).operand Strength.sequence).chars style level =
      e.text style level := e.operandText_sequence style level
  rw [← hinner]
  exact hchars

theorem Node.exists_statementText_expression
    (style : Style) (level : Nat) (span : Span) (e : Node) :
    ∃ text, (Node.mk .expressionStatement span [(.expression, .node e)]).statementText style level =
        text ++ [';'] ∧
      (text = e.text style level ∨ text = '(' :: (e.text style level ++ [')'])) := by
  refine ⟨_, Node.statementText_expression style level span e, ?_⟩
  split
  · exact .inr rfl
  · exact .inl rfl

namespace Node.Rereads

variable {e : Node} (he : e.Rereads style)

include he

theorem expressions_group
    (lineEnds : Bool)
    (hd : 2 * (e.text style level).length + 4 < d)
    (htail : Stops 0 tail)
    (hcomma : markOf tail ≠ ",") :
    Reads ((depth d).expressions lineEnds) ('(' :: (e.text style level ++ [')']) ++ tail) tail
      fun found => found.sameStructure e = true := by
  obtain ⟨d, rfl⟩ : ∃ k, d = k + 1 := ⟨d - 1, by omega⟩
  have hoperates : Operates (depth d) 0 0 ('(' :: (e.text style level ++ [')'])) e :=
    .of_chain (he.chains_group level (by omega)) (leadingPlainly_open _)
  refine reads_expressions_single (fun tail htail => ?_) htail hcomma
  exact hoperates.reads (Nat.le_refl 0) (Nat.le_refl 0) htail

theorem leading_statement (span : Span) (level : Nat) :
    ∃ text, Leading text ∧
      (Node.mk .expressionStatement span [(.expression, .node e)]).statementText style level =
        text ++ [';'] ∧
      ∀ tail lineEnds, 2 * (text.length + 1) ≤ d →
        Reads ((depth d).expressions lineEnds) (text ++ ';' :: tail) (';' :: tail)
          fun found => found.sameStructure e = true := by
  obtain ⟨text, htext, hform⟩ := Node.exists_statementText_expression style level span e
  have hstops : ∀ tail, Stops 0 (';' :: tail) :=
    fun tail => .closer (by decide : (';', ";") ∈ closers) 0 tail
  have hcomma : ∀ tail, markOf (';' :: tail) ≠ "," := by
    intro tail
    rw [markOf_eq (markAt_closer (by decide : (';', ";") ∈ closers) tail)]
    decide
  rcases hform with rfl | rfl
  · refine ⟨_, he.leading level, htext, fun tail lineEnds hd => ?_⟩
    exact he.expressions level d lineEnds _ (by omega) (hstops tail) (hcomma tail)
  · refine ⟨_, (leadingPlainly_open _).toLeading, htext, fun tail lineEnds hd => ?_⟩
    simp only [List.length_cons, List.length_append, List.length_nil] at hd
    exact he.expressions_group lineEnds (by omega) (hstops tail) (hcomma tail)

theorem begins_statement (span : Span) (level : Nat) (tail : List Char) :
    Begins
      ((Node.mk .expressionStatement span [(.expression, .node e)]).statementText style level ++
        tail) := by
  obtain ⟨text, hleading, htext, -⟩ := he.leading_statement (d := 0) span level
  have hopens := hleading.opens (';' :: tail) rfl
  rw [htext, List.append_assoc]
  refine ⟨hopens.fresh, ?_⟩
  obtain ⟨c, rest, hchars, hc⟩ := hopens.head
  refine ⟨c, rest, hchars, ?_⟩
  rintro rfl
  exact absurd hc (by decide)

/-- An expression that stands as a statement is read back. -/
theorem reads_statement
    (span : Span) (level : Nat) (tail : List Char)
    (hd : 2 * ((Node.mk .expressionStatement span [(.expression, .node e)]).statementText
      style level).length ≤ d) :
    Reads (statement (depth d))
      ((Node.mk .expressionStatement span [(.expression, .node e)]).statementText style level ++
        tail)
      tail fun found =>
        found.sameStructure (.mk .expressionStatement span [(.expression, .node e)]) = true := by
  obtain ⟨text, hleading, htext, hread⟩ := he.leading_statement (d := d) span level
  rw [htext, List.length_append, List.length_singleton] at hd
  rw [htext, List.append_assoc]
  have hcolon : markOf (';' :: tail) ≠ ":" := by
    rw [markOf_eq (markAt_closer (by decide : (';', ";") ∈ closers) tail)]
    decide
  exact reads_statement_expression (hleading.opens _ rfl) (hleading.noLabel _ rfl hcolon)
    (hread tail true hd)

end Node.Rereads

/-! ## Programs -/

/-- What the grammar reads to the end of a text is what the text is parsed as. -/
theorem exists_parse_of_reads
    {source : String} {P : Node → Prop}
    (hread : Reads (program (depth (4 * source.toList.length + 16))) source.toList [] P) :
    ∃ root, parse source = .ok root ∧ P root := by
  obtain ⟨root, stop, hrun, -, hroot⟩ := hread (Cursor.ofText source) rfl
  refine ⟨root, ?_, hroot⟩
  have hgrammar : program (grammar (Cursor.ofText source).rest.length) (Cursor.ofText source) =
      .ok (root, stop) := hrun
  simp only [parse, StateT.run, hgrammar]

theorem exists_run_of_parse
    {source : String} {root : Node}
    (hparse : parse source = .ok root) :
    ∃ stop, program (depth (4 * source.toList.length + 16)) (Cursor.ofText source) =
      .ok (root, stop) := by
  unfold parse at hparse
  dsimp only at hparse
  split at hparse
  next stop hrun =>
    cases hparse
    exact ⟨stop, hrun⟩
  next => cases hparse

theorem Node.sameStructure_program
    {body ns : List Node} {span span' : Span}
    (hsame : sameSequence body ns = true) :
    (Node.mk .program span [(.body, .list body)]).sameStructure
      (.mk .program span' [(.body, .list ns)]) = true :=
  Node.sameStructure_mk (by simp) (by simp [Slot.sameStructure, hsame])

/-- An expression of operators, members and calls, nested in any way and printed as a statement, is
read back with the same structure. -/
theorem Node.Plain.parse_print_statement
    {e : Node}
    (he : e.Plain .operand)
    (style : Style) (span : Span) :
    ∃ root,
      parse ((Node.mk .expressionStatement span [(.expression, .node e)]).print style) = .ok root ∧
      root.sameStructure (.mk .program span
        [(.body, .list [.mk .expressionStatement span [(.expression, .node e)]])]) = true := by
  have hrereads : e.Rereads style := he.rereadsAs style
  have htext := Node.toList_print_statement
    (n := .mk .expressionStatement span [(.expression, .node e)]) rfl nofun nofun style
  refine exists_parse_of_reads ?_
  rw [htext]
  have hlines : ReadsLines
      (depth (4 * ((Node.mk .expressionStatement span [(.expression, .node e)]).statementText
        style 0).length + 16))
      [((Node.mk .expressionStatement span [(.expression, .node e)]).statementText style 0,
        Node.mk .expressionStatement span [(.expression, .node e)])] := by
    intro front entry rest hsplit
    rw [List.singleton_eq_append_iff] at hsplit
    obtain ⟨rfl, hentry⟩ | ⟨-, hnil⟩ := hsplit
    · cases hentry
      exact ⟨hrereads.begins_statement span 0, hrereads.reads_statement span 0 _ (by omega)⟩
    · cases hnil
  have hread := reads_program skips_statement hlines
  simp only [List.map_cons, List.map_nil, lineTexts, List.flatMap_nil, List.append_nil] at hread
  refine hread.imp fun root hroot => ?_
  obtain ⟨span', body, rfl, hbody⟩ := hroot
  exact Node.sameStructure_program hbody

end Graft
