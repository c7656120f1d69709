import Graft.Proofs.Reprint.Misreadings

/-!
# Nested statements

Statements nested in each other in any way, with or without blocks in between, and the texts they
are printed as.  A statement starts with a word or with one of a few marks, and the blanks in front
of it make no difference.
-/

namespace Graft

open Grammar

/-! ## The statements -/

/-- A variable, or a named member of a reference. -/
inductive Node.Reference : Node → Prop
  | variableName {span : Span} {name : String} (hname : isVariable name = true) :
      Reference (.identifier name span)
  | member {span span' : Span} {object : Node} {name : String} (hobject : Reference object)
      (hname : isNameText name.toList = true) :
      Reference (.mk .memberExpression span [(.object, .node object),
        (.property, .node (.identifier name span')), (.computed, .flag false),
          (.optional, .flag false)])

/-- References, constants and calls of references, the arguments being simple again. -/
inductive Node.Simple : Node → Prop
  | reference {n : Node} (hn : n.Reference) : Simple n
  | integer {span : Span} {raw : String} (hne : raw.toList ≠ [])
      (hraw : raw.toList.all Char.isDigit = true) :
      Simple (.mk .literal span [(.value, .scalar (.num (Numeral.value? raw) raw))])
  | string {span : Span} {value : String}
      (hvalue : Text.Quoted.nulBeforeDigit value.toList = false) :
      Simple (.mk .literal span [(.value, .scalar (.str value))])
  | constant {span : Span} {word : String} {value : Scalar} (hword : (word, value) ∈ constants) :
      Simple (.mk .literal span [(.value, .scalar value)])
  | this {span : Span} : Simple (.mk .thisExpression span [])
  | call {span : Span} {callee : Node} {args : List Node} (hcallee : callee.Reference)
      (hargs : ∀ n ∈ args, Simple n) :
      Simple (.mk .callExpression span [(.callee, .node callee), (.arguments, .list args),
        (.optional, .flag false)])

/-- The first part of the head of a loop: a call or an assignment. -/
inductive Node.LoopStart : Node → Prop
  | call {n : Node} (hn : n.Simple) (hcall : n.kind = .callExpression) : LoopStart n
  | assignment {span : Span} {operator : String} {left right : Node}
      (hoperator : operator ∈ assignmentMarks) (hleft : left.Reference)
      (hright : right.Plain .operand) :
      LoopStart (.mk .assignmentExpression span [(.operator, .text operator),
        (.left, .node left), (.right, .node right)])

/-- Calls and empty statements in branches, loops, blocks and behind labels, nested in any way. -/
inductive Node.Nested : Node → Prop
  | empty {span : Span} : Nested (.mk .emptyStatement span [])
  | call {span : Span} {e : Node} (he : e.Simple) (hcall : e.kind = .callExpression) :
      Nested (.mk .expressionStatement span [(.expression, .node e)])
  | block {span : Span} {ns : List Node} (hns : ∀ n ∈ ns, Nested n) :
      Nested (.mk .blockStatement span [(.body, .list ns)])
  | ifThen {span : Span} {test consequent : Node} (htest : test.Plain .operand)
      (hconsequent : Nested consequent) :
      Nested (.mk .ifStatement span [(.test, .node test), (.consequent, .node consequent),
        (.alternate, .absent)])
  | ifElse {span : Span} {test consequent alternate : Node} (htest : test.Plain .operand)
      (hconsequent : Nested consequent) (halternate : Nested alternate) :
      Nested (.mk .ifStatement span [(.test, .node test), (.consequent, .node consequent),
        (.alternate, .node alternate)])
  | whileLoop {span : Span} {test body : Node} (htest : test.Plain .operand)
      (hbody : Nested body) :
      Nested (.mk .whileStatement span [(.test, .node test), (.body, .node body)])
  | doLoop {span : Span} {test body : Node} (htest : test.Plain .operand) (hbody : Nested body) :
      Nested (.mk .doWhileStatement span [(.body, .node body), (.test, .node test)])
  | forLoop {span : Span} {init test update : Option Node} {body : Node}
      (hinit : ∀ n ∈ init, n.LoopStart) (htest : ∀ n ∈ test, n.Plain .operand)
      (hupdate : ∀ n ∈ update, n.Plain .operand) (hbody : Nested body) :
      Nested (.mk .forStatement span [(.init, .ofOption init), (.test, .ofOption test),
        (.update, .ofOption update), (.body, .node body)])
  | labeled {span span' : Span} {name : String} {body : Node} (hname : isVariable name = true)
      (hbody : Nested body) :
      Nested (.mk .labeledStatement span [(.label, .node (.identifier name span')),
        (.body, .node body)])

/-- The text of the statement or expression starts with the name. -/
inductive Node.StartsWith (name : String) : Node → Prop
  | name {span : Span} : StartsWith name (.identifier name span)
  | member {span : Span} {object property : Node} {computed optional : Slot}
      (hobject : StartsWith name object) :
      StartsWith name (.mk .memberExpression span [(.object, .node object),
        (.property, .node property), (.computed, computed), (.optional, optional)])
  | call {span : Span} {callee : Node} {args : List Node} {optional : Slot}
      (hcallee : StartsWith name callee) :
      StartsWith name (.mk .callExpression span [(.callee, .node callee),
        (.arguments, .list args), (.optional, optional)])
  | expression {span : Span} {e : Node} (he : StartsWith name e) :
      StartsWith name (.mk .expressionStatement span [(.expression, .node e)])
  | label {span span' : Span} {body : Node} :
      StartsWith name (.mk .labeledStatement span [(.label, .node (.identifier name span')),
        (.body, .node body)])

variable {style : Style} {level d : Nat} {span : Span} {tail : List Char}

/-! ## Simple expressions -/

theorem Node.Reference.plain {n : Node} (hn : n.Reference) : n.Plain .operand := by
  induction hn with
  | variableName hname => exact .variableName hname
  | member _ hname ih => exact .member ih hname

theorem Node.Simple.plain {n : Node} (hn : n.Simple) : n.Plain .operand := by
  induction hn with
  | reference hn => exact hn.plain
  | integer hne hraw => exact .integer hne hraw
  | string hvalue => exact .string hvalue
  | constant hword => exact .constant hword
  | this => exact .this
  | call hcallee _ ih => exact .call hcallee.plain fun n hn => .value (ih n hn)

theorem Node.Reference.strength {n : Node} (hn : n.Reference) : Strength.call ≤ Strength.of n := by
  cases hn with
  | variableName => exact (by decide : Strength.call ≤ Strength.primary)
  | member => exact (by decide : Strength.call ≤ Strength.member)

theorem Node.Simple.strength {n : Node} (hn : n.Simple) : Strength.call ≤ Strength.of n := by
  cases hn with
  | reference hn => exact hn.strength
  | call => exact Nat.le_refl _
  | _ => exact (by decide : Strength.call ≤ Strength.primary)

theorem Node.Reference.isTarget {n : Node} (hn : n.Reference) : n.isTarget = true := by
  cases hn <;> rfl

theorem Node.LoopStart.plain {n : Node} (hn : n.LoopStart) : n.Plain .operand := by
  cases hn with
  | call hn => exact hn.plain
  | assignment hoperator hleft hright =>
      exact .assignment hoperator hleft.plain hleft.isTarget hright

theorem Node.LoopStart.kind_ne {n : Node} (hn : n.LoopStart) : n.kind ≠ .variableDeclaration := by
  cases hn with
  | call _ hcall =>
      rw [hcall]
      decide
  | assignment => exact nofun

/-- The text of a reference: a variable, and perhaps members behind it. -/
theorem Node.Reference.exists_text
    {n : Node}
    (hn : n.Reference)
    (style : Style) (level : Nat) :
    ∃ (name : String) (rest : List Char), isVariable name = true ∧ n.StartsWith name ∧
      n.text style level = name.toList ++ rest ∧
      (rest = [] ∨ ∃ (member : String) (more : List Char), isNameText member.toList = true ∧
        rest = '.' :: (member.toList ++ more)) := by
  induction hn with
  | @variableName _ name hname => 
      exact ⟨name, [], hname, .name, by simp [Node.text_identifier], .inl rfl⟩
  | @member _ _ object property hobject hproperty ih =>
      obtain ⟨name, rest, hname, hstarts, htext, hrest⟩ := ih
      have hobjectText : object.objectText style level = object.text style level := by
        have hinteger : Parts.isBareInteger object = false := by cases hobject <;> rfl
        rw [Node.objectText, hinteger, if_neg Bool.false_ne_true, Node.operandText_eq,
          if_neg (Nat.not_lt.mpr hobject.strength)]
      refine ⟨name, rest ++ '.' :: property.toList, hname, .member hstarts, ?_, .inr ?_⟩
      · rw [Node.text_member, hobjectText, htext, List.append_assoc]
      · rcases hrest with rfl | ⟨first, more, hfirst, rfl⟩
        · exact ⟨property, [], hproperty, by simp⟩
        · exact ⟨first, more ++ '.' :: property.toList, hfirst, by simp⟩

theorem Node.Simple.operandText_eq_text
    {n : Node}
    (hn : n.Simple)
    {least : Nat}
    (hleast : least ≤ Strength.call)
    (style : Style) (level : Nat) :
    n.operandText style level least = n.text style level := by
  have hstrength := hn.strength
  rw [Node.operandText_eq, if_neg (by omega)]

/-- The text of a simple call. -/
theorem Node.Simple.exists_callText
    {e : Node}
    (he : e.Simple) (hcall : e.kind = .callExpression)
    (style : Style) (level : Nat) :
    ∃ (callee : Node) (args : List Node), callee.Reference ∧ (∀ n ∈ args, n.Simple) ∧
      (∀ name, callee.StartsWith name → e.StartsWith name) ∧
      e.text style level = callee.text style level ++
        '(' :: (joined (itemTexts style level args) ++ [')']) := by
  cases he with
  | @call _ callee args hcallee hargs =>
      refine ⟨callee, args, hcallee, hargs, fun _ => .call, ?_⟩
      rw [Node.text_call, (Node.Simple.reference hcallee).operandText_eq_text (Nat.le_refl _)]
  | reference hn => cases hn <;> cases hcall
  | _ => cases hcall

/-- A simple expression starts with a word, a digit or a quote. -/
theorem Node.Simple.markOf_text
    {n : Node}
    (hn : n.Simple)
    (style : Style) (level : Nat) (tail : List Char) :
    markOf (n.text style level ++ tail) = "" := by
  have hword : ∀ {word : String} {rest : List Char}, isNameText word.toList = true →
      markOf (word.toList ++ rest) = "" := by
    intro word rest hname
    rw [markOf, markAt_of_isNameText hname]
    rfl
  cases hn with
  | reference hn =>
      obtain ⟨name, rest, hname, -, htext, -⟩ := hn.exists_text style level
      rw [htext, List.append_assoc, hword (isNameText_of_isVariable hname)]
  | @integer _ raw hne hraw =>
      obtain ⟨c, digits, hchars⟩ := List.exists_cons_of_ne_nil hne
      rw [hchars, List.all_cons, Bool.and_eq_true] at hraw
      have htext : raw.toList = (Scalar.num (Numeral.value? raw) raw).content.toList := rfl
      rw [Node.text_scalar (by simp), ← htext, hchars, List.cons_append, markOf,
        markAt_of_isNameChar (isNameChar_of_isDigit hraw.1)]
      rfl
  | string =>
      rw [Node.text_string, Text.Quoted.encode, String.toList_ofList, Text.Quoted.encodeChars]
      have hmark : ∀ rest, markOf (style.quotes.char :: rest) = "" := by
        intro rest
        have hfresh : isFresh (style.quotes.char :: rest) = true := by cases style.quotes <;> rfl
        rw [markOf, markAt_of_isFresh hfresh]
        cases style.quotes <;> rfl
      simp only [List.cons_append]
      exact hmark _
  | constant hmem =>
      simp only [constants, List.mem_cons, Prod.mk.injEq, List.not_mem_nil, or_false] at hmem
      rcases hmem with ⟨rfl, rfl⟩ | ⟨rfl, rfl⟩ | ⟨rfl, rfl⟩
      all_goals
        rw [Node.text_scalar (by simp)]
        exact hword (by decide)
  | this =>
      rw [Node.text_this]
      exact hword (by decide)
  | call hcallee =>
      obtain ⟨name, rest, hname, -, htext, -⟩ := hcallee.exists_text style level
      rw [Node.text_call, (Node.Simple.reference hcallee).operandText_eq_text (Nat.le_refl _),
        htext]
      simp only [List.append_assoc]
      exact hword (isNameText_of_isVariable hname)

/-! ## Texts -/

/-- A new line of some level. -/
def gap (style : Style) (level : Nat) : List Char := '\n' :: style.indentationChars level

theorem isBlank_of_mem_gap (style : Style) (level : Nat) :
    ∀ c ∈ gap style level, Text.isBlank c = true := by
  intro c hc
  rcases List.mem_cons.mp hc with rfl | hc
  · rfl
  · unfold Style.indentationChars at hc
    split at hc
    all_goals
      rw [(List.mem_replicate.mp hc).2]
      rfl

/-- The text of a statement inside another: a block stays on the line. -/
def Node.bodyText (style : Style) (level : Nat) (n : Node) : List Char :=
  if n.kind = .blockStatement then ' ' :: n.statementText style level
  else gap style (level + 1) ++ n.statementText style (level + 1)

theorem Doc.chars_substatement (n : Node) :
    (Parts.substatement (n.printed style)).chars style level = n.bodyText style level := by
  rw [Parts.substatement, Node.bodyText, Node.node_printed]
  split
  next hkind =>
    obtain ⟨kind, span, slots⟩ := n
    obtain rfl : kind = .blockStatement := hkind
    rw [Doc.chars_append, Doc.chars_ofText]
    rfl
  next =>
    rw [Doc.chars_nest, Doc.chars_append, Doc.chars_newline]
    rfl

/-- A statement inside another stands behind blanks, on the same level or the next. -/
theorem Node.exists_bodyText (style : Style) (level : Nat) (n : Node) :
    ∃ (blanks : List Char) (level' : Nat), blanks ≠ [] ∧ (∀ c ∈ blanks, Text.isBlank c = true) ∧
      n.bodyText style level = blanks ++ n.statementText style level' := by
  unfold Node.bodyText
  split
  · exact ⟨[' '], level, by simp, Grammar.isBlank_of_mem_space, rfl⟩
  · exact ⟨gap style (level + 1), level + 1, by simp [gap], isBlank_of_mem_gap style _, rfl⟩

theorem Doc.chars_lines (ns : List Node) :
    Doc.chars style level ((printedNodes style ns).flatMap fun c => Doc.newline ++ c.statement) =
      ns.flatMap fun n => gap style level ++ n.statementText style level := by
  rw [printedNodes_eq]
  induction ns with
  | nil => rfl
  | cons n ns ih =>
      simp only [List.map_cons, List.flatMap_cons, Doc.chars_append, ih, Doc.chars_newline]
      rfl

namespace Node

theorem statementText_empty :
    (Node.mk .emptyStatement span []).statementText style level = [';'] := rfl

theorem statementText_block {ns : List Node} :
    (Node.mk .blockStatement span [(.body, .list ns)]).statementText style level =
      '\x7b' :: ((ns.flatMap fun n => gap style (level + 1) ++ n.statementText style (level + 1)) ++
        (gap style level ++ ['\x7d'])) := by
  have hdoc : ((Node.mk .blockStatement span [(.body, .list ns)]).printed style).statement =
      Doc.ofText "\x7b" ++ Doc.nest ((printedNodes style ns).flatMap fun c =>
        Doc.newline ++ c.statement) ++ Doc.newline ++ Doc.ofText "\x7d" := rfl
  rw [statementText, hdoc]
  simp only [Doc.chars_append, Doc.chars_ofText, Doc.chars_nest, Doc.chars_newline,
    Doc.chars_lines]
  simp [gap]

/-- The blanks between a statement inside another and the word behind it. -/
def gapBehind (style : Style) (level : Nat) (body : Node) : List Char :=
  if body.kind = .blockStatement then [' '] else gap style level

/-- The text from `else` on. -/
def elseText (style : Style) (level : Nat) (consequent alternate : Node) : List Char :=
  gapBehind style level consequent ++
    ("else".toList ++ (if alternate.kind = .ifStatement then
      ' ' :: alternate.statementText style level else alternate.bodyText style level))

theorem statementText_ifThen {test consequent : Node} :
    (Node.mk .ifStatement span [(.test, .node test), (.consequent, .node consequent),
      (.alternate, .absent)]).statementText style level =
      "if".toList ++ ' ' :: '(' :: (test.text style level ++
        ')' :: consequent.bodyText style level) := by
  have hdoc : ((Node.mk .ifStatement span [(.test, .node test), (.consequent, .node consequent),
      (.alternate, .absent)]).printed style).statement =
        Doc.ofText "if (" ++ (test.printed style).operand Strength.sequence ++ Doc.ofText ")" ++
          Parts.substatement (consequent.printed style) ++ [] := rfl
  rw [statementText, hdoc]
  simp only [Doc.chars_append, Doc.chars_ofText, Doc.chars_substatement,
    ← Node.operandText_sequence style level test]
  simp [operandText]

theorem statementText_ifElse {test consequent alternate : Node} :
    (Node.mk .ifStatement span [(.test, .node test), (.consequent, .node consequent),
      (.alternate, .node alternate)]).statementText style level =
      "if".toList ++ ' ' :: '(' :: (test.text style level ++
        ')' :: (consequent.bodyText style level ++
          elseText style level consequent alternate)) := by
  have hdoc : ((Node.mk .ifStatement span [(.test, .node test), (.consequent, .node consequent),
      (.alternate, .node alternate)]).printed style).statement =
        Doc.ofText "if (" ++ (test.printed style).operand Strength.sequence ++ Doc.ofText ")" ++
          Parts.substatement (consequent.printed style) ++
            ((if decide ((consequent.printed style).node.kind = .blockStatement) then
                Doc.ofText " else"
              else Doc.newline ++ Doc.ofText "else") ++
                (if (alternate.printed style).node.kind = .ifStatement then
                  Doc.ofText " " ++ (alternate.printed style).statement
                    else Parts.substatement (alternate.printed style))) := rfl
  have helse : Doc.chars style level
      ((if decide ((consequent.printed style).node.kind = .blockStatement) then Doc.ofText " else"
        else Doc.newline ++ Doc.ofText "else") ++
          (if (alternate.printed style).node.kind = .ifStatement then
            Doc.ofText " " ++ (alternate.printed style).statement
              else Parts.substatement (alternate.printed style))) =
        elseText style level consequent alternate := by
    simp only [Node.node_printed, decide_eq_true_eq, elseText, gapBehind]
    rw [Doc.chars_append, ← List.append_assoc]
    congr 1
    · split <;> simp [gap]
    · split
      · simp [statementText]
      · exact Doc.chars_substatement alternate
  rw [statementText, hdoc]
  simp only [Doc.chars_append _ (_ ++ _), Doc.chars_append, Doc.chars_ofText,
    Doc.chars_substatement, ← Node.operandText_sequence style level test]
  rw [← Doc.chars_append, helse]
  simp [operandText]

theorem statementText_while {test body : Node} :
    (Node.mk .whileStatement span [(.test, .node test), (.body, .node body)]).statementText
        style level =
      "while".toList ++ ' ' :: '(' ::
        (test.text style level ++ ')' :: body.bodyText style level) := by
  have hdoc : ((Node.mk .whileStatement span [(.test, .node test),
      (.body, .node body)]).printed style).statement =
        Doc.ofText "while (" ++ (test.printed style).operand Strength.sequence ++ Doc.ofText ")" ++
          Parts.substatement (body.printed style) := rfl
  rw [statementText, hdoc]
  simp only [Doc.chars_append, Doc.chars_ofText, Doc.chars_substatement,
    ← Node.operandText_sequence style level test]
  simp [operandText]

theorem statementText_do {test body : Node} :
    (Node.mk .doWhileStatement span [(.body, .node body), (.test, .node test)]).statementText
        style level =
      "do".toList ++ (body.bodyText style level ++ (gapBehind style level body ++
        ("while".toList ++ ' ' :: '(' :: (test.text style level ++ [')', ';'])))) := by
  have hdoc : ((Node.mk .doWhileStatement span [(.body, .node body),
      (.test, .node test)]).printed style).statement =
        Doc.ofText "do" ++ Parts.substatement (body.printed style) ++
          (if decide ((body.printed style).node.kind = .blockStatement) then Doc.ofText " "
            else Doc.newline) ++
          Doc.ofText "while (" ++ (test.printed style).operand Strength.sequence ++
            Doc.ofText ");" := rfl
  have hgap : Doc.chars style level (if decide ((body.printed style).node.kind = .blockStatement)
      then Doc.ofText " " else Doc.newline) = gapBehind style level body := by
    simp only [Node.node_printed, decide_eq_true_eq, gapBehind]
    split <;> simp [gap]
  rw [statementText, hdoc]
  simp only [Doc.chars_append, Doc.chars_ofText, Doc.chars_substatement, hgap,
    ← Node.operandText_sequence style level test]
  simp [operandText]

/-- A part of the head of a loop, behind some blanks. -/
def partText (style : Style) (level : Nat) (space : List Char) : Option Node → List Char
  | some n => space ++ n.text style level
  | none => []

theorem chars_loopHead {n : Node} (hkind : n.kind ≠ .variableDeclaration) :
    (n.printed style).loopHead.chars style level = n.text style level := by
  obtain ⟨kind, span, slots⟩ := n
  have hloop : ((Node.mk kind span slots).printed style).loopHead =
      ((Node.mk kind span slots).printed style).operand Strength.sequence := if_neg hkind
  rw [hloop]
  exact Node.operandText_sequence style level _

theorem statementText_for
    {init test update : Option Node} {body : Node}
    (hinit : ∀ n ∈ init, n.kind ≠ .variableDeclaration) :
    (Node.mk .forStatement span [(.init, .ofOption init), (.test, .ofOption test),
      (.update, .ofOption update), (.body, .node body)]).statementText style level =
      "for".toList ++ ' ' :: '(' :: (partText style level [] init ++
        ';' :: (partText style level [' '] test ++ ';' :: (partText style level [' '] update ++
          ')' :: body.bodyText style level))) := by
  let headDoc : Option Node → Doc
    | some n => (n.printed style).loopHead
    | none => []
  let partDoc : Option Node → Doc
    | some n => Doc.ofText " " ++ (n.printed style).operand Strength.sequence
    | none => []
  have hdoc : ((Node.mk .forStatement span [(.init, .ofOption init), (.test, .ofOption test),
      (.update, .ofOption update), (.body, .node body)]).printed style).statement =
        Doc.ofText "for (" ++ headDoc init ++ Doc.ofText ";" ++ partDoc test ++ Doc.ofText ";" ++
          partDoc update ++ Doc.ofText ")" ++ Parts.substatement (body.printed style) := by
    cases init <;> cases test <;> cases update <;> rfl
  have hhead : (headDoc init).chars style level = partText style level [] init := by
    cases init with
    | none => rfl
    | some n => exact chars_loopHead (hinit n rfl)
  have hpart : ∀ part, (partDoc part).chars style level = partText style level [' '] part := by
    rintro (- | n)
    · rfl
    · rw [partText, ← Node.operandText_sequence]
      exact Doc.chars_append _ _
  rw [statementText, hdoc]
  simp only [Doc.chars_append, Doc.chars_ofText, Doc.chars_substatement, hhead, hpart]
  simp

theorem statementText_labeled {span' : Span} {name : String} {body : Node} :
    (Node.mk .labeledStatement span [(.label, .node (.identifier name span')),
      (.body, .node body)]).statementText style level =
      name.toList ++ ':' :: ' ' :: body.statementText style level := by
  have hdoc : ((Node.mk .labeledStatement span [(.label, .node (.identifier name span')),
      (.body, .node body)]).printed style).statement =
        Doc.ofText name ++ Doc.ofText ": " ++ (body.printed style).statement := rfl
  rw [statementText, hdoc]
  simp [statementText]

theorem isBlank_of_mem_gapBehind (style : Style) (level : Nat) (body : Node) :
    ∀ c ∈ gapBehind style level body, Text.isBlank c = true := by
  unfold gapBehind
  split
  · exact Grammar.isBlank_of_mem_space
  · exact isBlank_of_mem_gap style level

end Node

namespace Grammar

/-! ## Blanks -/

section

variable {space : List Char} (hblanks : ∀ c ∈ space, Text.isBlank c = true) (text : List Char)

include hblanks

theorem skipped_blanks : skipped (space ++ text) = skipped text := by
  induction space with
  | nil => rfl
  | cons c space ih =>
      rw [List.forall_mem_cons] at hblanks
      rw [List.cons_append, skipped_blank hblanks.1, ih hblanks.2]

theorem wordAt_blanks : wordAt (space ++ text) = wordAt text := by
  rw [wordAt, skipped_blanks hblanks, wordAt]

theorem markAt_blanks : markAt (space ++ text) = markAt text := by
  rw [markAt, skipped_blanks hblanks, markAt]

theorem wordOf_blanks : wordOf (space ++ text) = wordOf text := by
  rw [wordOf, wordAt_blanks hblanks, wordOf]

theorem markOf_blanks : markOf (space ++ text) = markOf text := by
  rw [markOf, markAt_blanks hblanks, markOf]

end

theorem get_bind_apply {α : Type} (f : Cursor → Parser α) (cur : Cursor) :
    (get >>= f : Parser α) cur = f cur cur :=
  rfl

theorem Skips.mark (text : String) : Skips (mark text) := by
  intro place c rest hc
  have hskip : Cursor.skip ⟨place, c :: rest⟩ = Cursor.skip ⟨place.after c, rest⟩ :=
    skipFrom_blank hc false place rest
  have hfound : Cursor.mark? ⟨place, c :: rest⟩ = Cursor.mark? ⟨place.after c, rest⟩ := by
    rw [Cursor.mark?, hskip, Cursor.mark?]
  have hrun : ∀ cur : Cursor, Grammar.mark text cur =
      cur.mark?.elim (.error .unexpected) fun found =>
        if found.1 == text then .ok (⟨⟩, found.2) else .error .unexpected := by
    intro cur
    rw [Grammar.mark, get_bind_apply]
    cases cur.mark? with
    | none => rfl
    | some found =>
        simp only [Option.elim_some]
        split <;> rfl
  rw [hrun, hrun, hfound]

theorem endsName_of_isBlank {c : Char} (hc : Text.isBlank c = true) (rest : List Char) :
    endsName (c :: rest) = true := by
  have hescape : c ≠ '\\' := by
    rintro rfl
    exact absurd hc (by decide)
  simp [endsName, isNameChar, hc, hescape]

/-! ## How a statement starts -/

/-- The text of a statement, as its start shows. -/
inductive StatementStart : List Char → Prop
  | word {word : String} {after : List Char}
      (hword : word ∈ clauseWords ∨ isVariable word = true) (hne : after ≠ [])
      (hends : endsName after = true) : StatementStart (word.toList ++ after)
  | mark {c : Char} {mark : String} {rest : List Char} (hc : (c, mark) ∈ statementMarks) :
      StatementStart (c :: rest)

/-- A statement is complete in front of the text, unless an `else` follows it. -/
structure Closes (tail : List Char) : Prop where
  mark : markOf tail ∈ ["", ";", "(", "\x7b", "\x7d"]
  word : binaryStrength? (wordOf tail) = none
  ends : endsName tail = true
  noDot : tail.head? ≠ some '.'

/-- An operand is complete there too, but for parentheses, which would call it. -/
theorem Closes.stops
    {tail : List Char}
    (htail : Closes tail) (hopen : markOf tail ≠ "(") :
    Stops 0 tail := by
  have hmark := htail.mark
  have hfacts : ∀ mark ∈ ["", ";", "(", "\x7b", "\x7d"], mark ≠ "(" →
      mark ≠ "=>" ∧ mark ∉ suffixMarks ∧ mark ∉ assignmentMarks ∧ binaryStrength? mark = none ∧
        mark ≠ "?" := by decide
  obtain ⟨harrow, hsuffix, hassignment, hoperator, htest⟩ := hfacts _ hmark hopen
  refine ⟨⟨htail.ends, harrow⟩, htail.noDot, hsuffix, hassignment, ?_, fun heq => absurd heq htest⟩
  intro operator after strength hfound hstrength
  have hnone : binaryStrength? operator = none := by
    unfold operatorAt at hfound
    split at hfound
    next found hmark =>
      cases hfound
      rwa [markOf_eq hmark] at hoperator
    next =>
      rw [← wordOf_eq hfound]
      exact htail.word
  cases hnone.symm.trans hstrength

theorem binaryStrength?_of_isVariable {name : String} (hname : isVariable name = true) :
    binaryStrength? name = none := by
  have hall : ∀ operator ∈ binaryOperators, isVariable operator = false := by decide +kernel
  cases hstrength : binaryStrength? name with
  | none => rfl
  | some strength =>
      have hmem : name ∈ binaryOperators := by
        unfold binaryStrength? at hstrength
        split at hstrength
        all_goals first | decide | cases hstrength
      exact Bool.noConfusion (hname.symm.trans (hall name hmem))

theorem isNameText_of_start {word : String} (hword : word ∈ clauseWords ∨ isVariable word = true) :
    isNameText word.toList = true := by
  rcases hword with hword | hword
  · exact (clauseWords_facts word hword).1
  · exact isNameText_of_isVariable hword

theorem endsName_append
    {text : List Char}
    (hne : text ≠ []) (htext : endsName text = true)
    (tail : List Char) :
    endsName (text ++ tail) = true := by
  obtain ⟨c, rest, rfl⟩ := List.exists_cons_of_ne_nil hne
  exact htext

theorem StatementStart.begins
    {text : List Char}
    (htext : StatementStart text)
    (tail : List Char) :
    Begins (text ++ tail) := by
  cases htext with
  | @word word after hword _ _ =>
      have hname := isNameText_of_start hword
      rw [List.append_assoc]
      refine ⟨isFresh_of_isNameText hname, ?_⟩
      cases hchars : word.toList with
      | nil => simp [hchars, isNameText] at hname
      | cons c rest =>
          rw [hchars, isNameText, Bool.and_eq_true, Bool.and_eq_true] at hname
          exact ⟨c, _, rfl, ne_of_isNameChar hname.1.2 (by decide)⟩
  | @mark c mark rest hc =>
      refine ⟨(statementMarks_facts _ hc _).1, c, _, rfl, ?_⟩
      have hall : ∀ entry ∈ statementMarks, entry.1 ≠ '#' := by decide
      exact hall _ hc

theorem StatementStart.mark_mem
    {text : List Char}
    (htext : StatementStart text)
    (tail : List Char) :
    markOf (text ++ tail) ∈ ["", ";", "(", "\x7b"] := by
  cases htext with
  | word hword =>
      rw [List.append_assoc, markOf, markAt_of_isNameText (isNameText_of_start hword)]
      decide
  | @mark c mark rest hc =>
      have hall : ∀ entry ∈ statementMarks, entry.2 ∈ ["", ";", "(", "\x7b"] := by decide
      rw [List.cons_append, markOf_eq (statementMarks_facts _ hc (rest ++ tail)).2.1]
      exact hall _ hc

theorem StatementStart.word_facts
    {text : List Char}
    (htext : StatementStart text)
    (tail : List Char) :
    binaryStrength? (wordOf (text ++ tail)) = none ∧ wordOf (text ++ tail) ≠ "else" := by
  cases htext with
  | @word word after hword hne hends =>
      rw [List.append_assoc, wordOf_eq
        (wordAt_append (isNameText_of_start hword) (endsName_append hne hends tail))]
      rcases hword with hword | hword
      · have hall : ∀ word ∈ clauseWords, binaryStrength? word = none ∧ word ≠ "else" := by decide
        exact hall word hword
      · refine ⟨binaryStrength?_of_isVariable hword, ?_⟩
        rintro rfl
        exact absurd hword (by decide +kernel)
  | @mark c mark rest hc =>
      rw [List.cons_append, wordOf, (statementMarks_facts _ hc (rest ++ tail)).2.2.1]
      decide

end Grammar

/-! ### Behind blanks -/

namespace Grammar

variable {space : List Char} (hne : space ≠ []) (hspace : ∀ c ∈ space, Text.isBlank c = true)

include hne hspace

theorem endsName_blanks (rest : List Char) :
    endsName (space ++ rest) = true ∧ (space ++ rest).head? ≠ some '.' := by
  obtain ⟨c, more, rfl⟩ := List.exists_cons_of_ne_nil hne
  have hc := hspace c List.mem_cons_self
  refine ⟨endsName_of_isBlank hc _, fun hdot => ?_⟩
  obtain rfl : c = '.' := by simpa using hdot
  exact absurd hc (by decide)

theorem StatementStart.closes
    {text : List Char}
    (htext : StatementStart text)
    (tail : List Char) :
    Closes (space ++ (text ++ tail)) where
  mark := by
    have hall : ∀ mark ∈ ["", ";", "(", "\x7b"], mark ∈ ["", ";", "(", "\x7b", "\x7d"] := by decide
    rw [markOf_blanks hspace]
    exact hall _ (htext.mark_mem tail)
  word := by
    rw [wordOf_blanks hspace]
    exact (htext.word_facts tail).1
  ends := (endsName_blanks hne hspace _).1
  noDot := (endsName_blanks hne hspace _).2

theorem Closes.of_word
    {word : String}
    (hname : isNameText word.toList = true) (hword : binaryStrength? word = none)
    {tail : List Char}
    (hends : endsName tail = true) :
    Closes (space ++ (word.toList ++ tail)) where
  mark := by
    rw [markOf_blanks hspace, markOf, markAt_of_isNameText hname]
    decide
  word := by rwa [wordOf_blanks hspace, wordOf_eq (wordAt_append hname hends)]
  ends := (endsName_blanks hne hspace _).1
  noDot := (endsName_blanks hne hspace _).2

end Grammar

theorem Node.bodyText_ne_nil (n : Node) : n.bodyText style level ≠ [] := by
  obtain ⟨space, level', hne, -, htext⟩ := n.exists_bodyText style level
  simp [htext, hne]

theorem Node.endsName_bodyText (n : Node) (rest : List Char) :
    endsName (n.bodyText style level ++ rest) = true := by
  obtain ⟨space, level', hne, hspace, htext⟩ := n.exists_bodyText style level
  rw [htext, List.append_assoc]
  exact (endsName_blanks hne hspace _).1

theorem Node.Nested.starts
    {n : Node}
    (hn : n.Nested)
    (style : Style) (level : Nat) :
    StatementStart (n.statementText style level) := by
  cases hn with
  | empty => exact .mark (by decide : (';', ";") ∈ statementMarks)
  | @call span e he hcall =>
      obtain ⟨text, htext, hform⟩ := Node.exists_statementText_expression style level span e
      rw [htext]
      rcases hform with rfl | rfl
      · obtain ⟨callee, args, hcallee, -, -, htext⟩ := he.exists_callText hcall style level
        obtain ⟨name, rest, hname, -, hcalleeText, hrest⟩ := hcallee.exists_text style level
        rw [htext, hcalleeText]
        simp only [List.append_assoc]
        refine .word (.inr hname) (by simp) ?_
        rcases hrest with rfl | ⟨member, more, -, rfl⟩ <;> rfl
      · exact .mark (by decide : ('(', "(") ∈ statementMarks)
  | block =>
      rw [Node.statementText_block]
      exact .mark (by decide : ('\x7b', "\x7b") ∈ statementMarks)
  | ifThen =>
      rw [Node.statementText_ifThen]
      exact .word (.inl (by decide)) (by simp) rfl
  | ifElse =>
      rw [Node.statementText_ifElse]
      exact .word (.inl (by decide)) (by simp) rfl
  | whileLoop =>
      rw [Node.statementText_while]
      exact .word (.inl (by decide)) (by simp) rfl
  | @doLoop _ _ body _ _ =>
      rw [Node.statementText_do]
      exact .word (.inl (by decide)) (by simp [body.bodyText_ne_nil]) (body.endsName_bodyText _)
  | forLoop hinit =>
      rw [Node.statementText_for fun n hn => (hinit n hn).kind_ne]
      exact .word (.inl (by decide)) (by simp) rfl
  | labeled hname =>
      rw [Node.statementText_labeled]
      exact .word (.inr hname) (by simp) rfl

end Graft
