import Graft.Proofs.Reprint.Statements

/-!
# Lost blocks

A block with nothing in it but a label in front of a block that reads like an object is read as an
expression, where a statement may end behind it.  Whatever stands around such a block, the whole is
then not read back: the parts in front of it are read as they are, and then comes another one.
-/

namespace Graft

open Grammar

variable {style : Style} {level d : Nat} {span : Span} {tail : List Char} {n : Node} {free : Prop}

namespace Grammar

/-! ## What a reading gives -/

section

variable {α β : Type} {p q : Parser α} {input output : List Char} {P : α → Prop} {Q : β → Prop}

/-- Every result that the parser gives in front of `input` has the property. -/
def Gives (p : Parser α) (input : List Char) (P : α → Prop) : Prop :=
  ∀ cur : Cursor, cur.rest = input → LeavesAt cur p fun a _ => P a

namespace Gives

theorem of_yields (hp : Yields p P) : Gives p input P :=
  fun cur _ => hp cur (Nat.zero_le _)

theorem of_goesOn
    {next : β → Parser α}
    (hp : GoesOn p input output next Q) (hnext : ∀ b, Q b → Gives (next b) output P) :
    Gives p input P := by
  intro cur hcur a stop hrun
  obtain ⟨b, middle, hgoes, hmiddle, hb⟩ := hp cur hcur
  rw [hgoes] at hrun
  exact hnext b hb middle hmiddle a stop hrun

/-- What is given behind a text that has been read. -/
theorem after
    {f : α → Parser β}
    (hp : Reads p input output P) (hf : ∀ a, P a → Gives (f a) output Q) :
    Gives (p >>= f) input Q :=
  of_goesOn hp.goesOn hf

theorem bind
    {f : α → Parser β}
    (hp : Gives p input P) (hf : ∀ a, P a → Yields (f a) Q) :
    Gives (p >>= f) input Q :=
  fun cur hcur => (hp cur hcur).bind fun a stop ha => hf a ha stop (Nat.zero_le _)

theorem imp {P' : α → Prop} (hp : Gives p input P) (himp : ∀ a, P a → P' a) : Gives p input P' :=
  fun cur hcur a stop hrun => himp a (hp cur hcur a stop hrun)

theorem map {f : α → β} (hp : Gives p input fun a => Q (f a)) : Gives (f <$> p) input Q := by
  rw [← bind_pure_comp]
  exact hp.bind fun a ha => .of_pure ha

theorem get
    {f : Cursor → Parser α}
    (hf : ∀ cur : Cursor, cur.rest = input → Gives (f cur) input P) :
    Gives (get >>= f) input P :=
  fun cur hcur => hf cur hcur cur hcur

theorem either (hp : Gives p input P) (hq : Gives q input P) : Gives (either p q) input P := by
  intro cur hcur a stop hrun
  unfold Grammar.either at hrun
  split at hrun
  next hfirst =>
    cases hrun
    exact hp cur hcur a stop hfirst
  next => exact hq cur hcur a stop hrun

/-- The first of two alternatives is taken if it can be. -/
theorem either_of_reads (hp : Reads p input output P) : Gives (Grammar.either p q) input P := by
  intro cur hcur a stop hrun
  obtain ⟨b, stop', hread, -, hb⟩ := hp cur hcur
  rw [Grammar.either, hread] at hrun
  cases hrun
  exact hb

theorem blanks
    {blanks : List Char}
    (hskips : Skips p) (hblanks : ∀ c ∈ blanks, Text.isBlank c = true) (hp : Gives p input P) :
    Gives p (blanks ++ input) P :=
  of_goesOn (.blanks hblanks hskips .refl) fun _ _ => hp

end Gives

/-- Some round of a loop gives what it should not, and the rounds before it read their parts. -/
inductive Amiss (p : Parser α) (R : β → α → Prop) : List β → List Char → Prop
  | here {b : β} {bs : List β} {text : List Char} (hgives : Gives p text fun a => ¬ R b a) :
      Amiss p R (b :: bs) text
  | later {b : β} {bs : List β} {text middle : List Char} (hread : Reads p text middle (R b))
      (hrest : Amiss p R bs middle) : Amiss p R (b :: bs) text

theorem Amiss.whileMore
    {more : Cursor → Bool} {R : β → α → Prop} {bs : List β}
    (hamiss : Amiss p R bs input) :
    Gives (whileMore more p) input fun as => ¬ List.Forall₂ R bs as := by
  have hrepeated : ∀ fuel, Gives (repeated more p fuel) input fun as => ¬ List.Forall₂ R bs as := by
    intro fuel
    induction hamiss generalizing fuel with
    | here hgives =>
        cases fuel with
        | zero => exact .of_yields (.of_pure nofun)
        | succ fuel =>
            refine .get fun cur hcur => ?_
            split
            · refine hgives.bind fun a ha => .skip fun as => .of_pure ?_
              rintro (_ | ⟨hb, -⟩)
              exact ha hb
            · exact .of_yields (.of_pure nofun)
    | later hread _ ih =>
        cases fuel with
        | zero => exact .of_yields (.of_pure nofun)
        | succ fuel =>
            refine .get fun cur hcur => ?_
            split
            · refine .after hread fun a ha => (ih fuel).bind fun as has => .of_pure ?_
              rintro (_ | ⟨-, hbs⟩)
              exact has hbs
            · exact .of_yields (.of_pure nofun)
  exact .get fun cur _ => hrepeated _

end

/-! ## Blocks as objects -/

variable {g : Productions} {lineEnds : Bool}

/-- Braces as a value, and calls behind them. -/
theorem reads_operation_brace
    {need : Nat} {inner middle : List Char}
    (hobject : Reads (object (depth d)) ('\x7b' :: inner) tail fun _ => True)
    (hleaves : LeavesBehind need middle tail)
    (hd : need ≤ d) :
    Reads ((depth (d + 1)).operation 0 lineEnds) ('\x7b' :: inner) middle fun _ => True := by
  have hprimary : Reads (primary (depth d) lineEnds) ('\x7b' :: inner) tail fun _ => True := by
    refine goesOn_primary_brace ?_
    refine (Reads.start (skipped_of_isFresh rfl)).bind fun origin _ => ?_
    have hliteral : Reads (do return (⟨← object (depth d), origin, .literal⟩ : Operand))
        ('\x7b' :: inner) tail fun o => o.form = .literal :=
      hobject.bind fun _ _ => .of_pure rfl
    refine hliteral.eitherReading.bind fun found hfound => .get fun cur _ => ?_
    simp only [hfound, decide_true, Bool.true_or, if_true]
    exact .of_pure trivial
  have hwhole : Reads (do
      let first ← primary (depth d) lineEnds
      let whole ← suffixed (depth d) true lineEnds first
      assigned (depth d) lineEnds whole) ('\x7b' :: inner) middle fun _ => True := by
    refine hprimary.bind fun first _ => ?_
    refine (hleaves.read d lineEnds first hd).bind fun whole _ => ?_
    exact (reads_assigned_none hleaves.stops.noAssignment).imp fun _ _ => trivial
  refine (goesOn_operand (opensPlainly_brace inner) hwhole).bind fun left _ => .get fun cur _ => ?_
  exact (reads_operators_none hleaves.stops).imp fun _ _ => trivial

section

variable {inner close : List Char} (hmark : markOf inner ∉ ["\x7d", ","])
  (hclose : markAt close = some ("\x7d", tail)) (hlength : close.length < inner.length)

include hmark hclose hlength

theorem reads_members
    {α : Type} {round : Parser α}
    (hround : Reads round inner close fun _ => True) :
    Reads (whileMore (fun cur => cur.nextMark != "\x7d") round) inner close fun _ => True := by
  simp only [List.mem_cons, List.not_mem_nil, or_false, not_or] at hmark
  have hrounds : Rounds (fun cur => cur.nextMark != "\x7d") round (fun (_ : Unit) _ => True) [⟨⟩]
      inner close := by
    refine .cons (fun cur hcur => ?_) hround hlength (.nil fun cur hcur => ?_)
    · rw [Cursor.nextMark_eq, hcur]
      simpa using hmark.1
    · rw [Cursor.nextMark_eq, hcur, markOf_eq hclose]
      rfl
  exact hrounds.whileMore.imp fun _ _ => trivial

theorem reads_object (hmember : Reads (objectMember g) inner close fun _ => True) :
    Reads (object g) ('\x7b' :: inner) tail fun _ => True := by
  refine (Reads.start (skipped_of_isFresh rfl)).bind fun origin _ => ?_
  refine (Reads.mark (markAt_brace inner)).bind fun _ _ => ?_
  refine (reads_members hmark hclose hlength ?_).bind fun _ _ =>
    (Reads.mark hclose).bind fun _ _ => Reads.node fun _ => trivial
  simp only [List.mem_cons, List.not_mem_nil, or_false, not_or] at hmark
  refine (Reads.hasMark_false hmark.2).bind fun found hfound => ?_
  rw [hfound]
  refine hmember.bind fun member _ => .get fun cur hcur => ?_
  have hnext : cur.nextMark = "\x7d" := by rw [Cursor.nextMark_eq, hcur, markOf_eq hclose]
  simp only [hnext, bne_self_eq_false, Bool.false_eq_true, if_false]
  exact .of_pure trivial

end

/-- A key with a value, or a method. -/
theorem reads_objectMember
    {word : String} {after output : List Char}
    (hname : isNameText word.toList = true)
    (hword : word ∉ modifierWords)
    (hends : endsName after = true)
    (hafter : (∃ rest, markAt after = some (":", rest) ∧
        Reads (g.expression false) rest output fun _ => True) ∨
      ∃ middle, markOf after = "(" ∧ Reads (parameters g) after middle (fun _ => True) ∧
        Reads g.block middle output fun _ => True) :
    Reads (objectMember g) (word.toList ++ after) output fun _ => True := by
  have hmarkOf : markOf (word.toList ++ after) = "" := by
    rw [markOf, markAt_of_isNameText hname]
    rfl
  refine (Reads.start (skipped_name hname after)).bind fun origin horigin => ?_
  have hnext : origin.nextMark ≠ "..." := by
    rw [Cursor.nextMark_eq, horigin, hmarkOf]
    decide
  simp only [beq_iff_eq, hnext, if_false]
  refine (reads_methodHead ?_ ?_).bind fun head hhead => ?_
  · rwa [wordOf_eq (wordAt_append hname hends)]
  · rw [hmarkOf]
    decide
  subst hhead
  refine (reads_propertyKey hname hends).bind fun key hkeyNode => ?_
  obtain ⟨span, rfl⟩ := hkeyNode
  refine .get fun cur hcur => ?_
  rcases hafter with ⟨rest, hcolon, hvalue⟩ | ⟨middle, hopen, hparameters, hblock⟩
  · have hnext : cur.nextMark = ":" := by rw [Cursor.nextMark_eq, hcur, markOf_eq hcolon]
    simp only [hnext, MethodHead.isPlain, String.reduceEq, if_false, Bool.not_false, BEq.rfl,
      Bool.and_self, Bool.not_true, Bool.false_eq_true]
    refine (Reads.hasMark hcolon).bind fun found hfound => ?_
    rw [hfound]
    exact hvalue.bind fun _ _ => Reads.node fun _ => trivial
  · have hnext : cur.nextMark = "(" := by rw [Cursor.nextMark_eq, hcur, hopen]
    simp only [hnext, if_true]
    refine hparameters.bind fun _ _ => hblock.bind fun _ _ => ?_
    exact Reads.newNode.bind fun _ _ => Reads.node fun _ => trivial

end Grammar

/-- An `if` or a `while` as a method. -/
theorem reads_member_clause
    {word : String} {test body : Node}
    (hword : word ∈ ["if", "while"])
    (htest : test.Plain .operand)
    (hlike : test.ParametersLike)
    (hkind : body.kind = .blockStatement)
    (hread : body.ReadsBlock style)
    (hd : 2 * ((test.text style level).length + (body.bodyText style level).length) < d) :
    Reads (objectMember (depth d)) (word.toList ++ ' ' :: '(' :: (test.text style level ++
      ')' :: (body.bodyText style level ++ tail))) tail fun _ => True := by
  have hclause : ∀ word ∈ ["if", "while"], word ∈ clauseWords := by decide
  obtain ⟨hname, -, -, hmodifier⟩ := clauseWords_facts word (hclause word hword)
  refine reads_objectMember hname hmodifier rfl
    (.inr ⟨body.bodyText style level ++ tail, ?_, ?_, ?_⟩)
  · rw [markOf_space, markOf_eq (markAt_open _)]
  · exact .blank (.bind (.mark "(")) rfl ((decides_parameters_test htest (by omega)).reads hlike)
  · rw [Node.bodyText, if_pos hkind] at hd ⊢
    rw [List.length_cons] at hd
    exact .blank (.bind .start) rfl ((hread hkind level d tail (by omega)).imp fun _ _ => trivial)

theorem Node.MethodLike.reads_member
    (hlike : n.MethodLike)
    (hn : n.Nested)
    (hdangles : ¬ n.Dangles)
    (hkept : ¬ n.LosesBlock False)
    (hd : 2 * (n.statementText style level).length ≤ d) :
    Reads (objectMember (depth d)) (n.statementText style level ++ tail) tail fun _ => True := by
  cases hlike with
  | ifThen hparameters hkind =>
      cases hn with
      | ifThen htest hconsequent =>
          have hread := hconsequent.readings
            (Node.not_dangles_of_child ⟨.consequent, none⟩ hdangles rfl rfl) style
          rw [Node.statementText_ifThen] at hd ⊢
          simp only [List.length_append, List.length_cons] at hd
          simp only [List.append_assoc, List.cons_append]
          exact reads_member_clause (by decide) htest hparameters hkind
            (hread.block fun hloses => hkept (.consequent rfl rfl rfl hloses)) (by omega)
  | whileLoop hparameters hkind =>
      cases hn with
      | whileLoop htest hbody =>
          have hread := hbody.readings
            (Node.not_dangles_of_child ⟨.body, none⟩ hdangles rfl rfl) style
          rw [Node.statementText_while] at hd ⊢
          simp only [List.length_append, List.length_cons] at hd
          simp only [List.append_assoc, List.cons_append]
          exact reads_member_clause (by decide) htest hparameters hkind
            (hread.block fun hloses => hkept (.last rfl rfl hloses)) (by omega)

/-- A block with a single statement that is read as a member is read as an object. -/
theorem reads_object_line
    {s : Node}
    (hs : s.Nested)
    (hmember : Reads (objectMember (depth d)) (s.statementText style (level + 1) ++
      (linesText style level [] ++ tail)) (linesText style level [] ++ tail) fun _ => True) :
    Reads (object (depth d)) ('\x7b' :: (linesText style level [s] ++ tail)) tail
      fun _ => True := by
  have hgap := isBlank_of_mem_gap style (level + 1)
  simp only [linesText_cons, List.append_assoc]
  refine reads_object ?_ (markAt_linesText_nil tail) ?_
    (.blanks hgap (.bind .start) hmember)
  · have hall : ∀ mark ∈ ["", ";", "(", "\x7b"], mark ∉ ["\x7d", ","] := by decide
    rw [markOf_blanks hgap]
    exact hall _ ((hs.starts style (level + 1)).mark_mem _)
  · simp only [List.length_append, gap, List.length_cons]
    omega

theorem Node.ObjectLike.reads_object
    (hlike : n.ObjectLike)
    (hn : n.Nested)
    (hdangles : ¬ n.Dangles)
    (hkept : ¬ n.LosesBlock False)
    (hd : 2 * (n.statementText style level).length ≤ d) :
    Reads (object (depth d)) (n.statementText style level ++ tail) tail fun _ => True := by
  cases hlike with
  | empty =>
      rw [Node.statementText_block]
      exact reads_object_empty (markAt_linesText_nil tail)
  | @method span m hm =>
      cases hn with
      | block hns =>
          rw [Node.statementText_lines] at hd ⊢
          simp only [linesText_cons, List.length_cons, List.length_append] at hd
          refine reads_object_line (hns m List.mem_cons_self) (hm.reads_member
            (hns m List.mem_cons_self) ?_ ?_ (by omega))
          · exact Node.not_dangles_of_child ⟨.body, some 0⟩ hdangles rfl rfl
          · exact fun hloses => hkept (@Node.LosesBlock.line _ _ [] [] m (hloses.mono False.elim))

/-- A label in front of braces is the key of an object. -/
theorem reads_object_labeled
    {span' : Span} {name : String} {body : Node}
    (hname : isVariable name = true)
    (hbody : body.Nested)
    (hlike : body.ObjectLike)
    (hdangles : ¬ body.Dangles)
    (hkept : ¬ body.LosesBlock False)
    (hd : 2 * (linesText style level [.mk .labeledStatement span
      [(.label, .node (.identifier name span')), (.body, .node body)]]).length ≤ d) :
    Reads (object (depth d)) ('\x7b' :: (linesText style level [.mk .labeledStatement span
      [(.label, .node (.identifier name span')), (.body, .node body)]] ++ tail)) tail
      fun _ => True := by
  refine reads_object_line (.labeled hname hbody) ?_
  simp only [linesText_cons, List.length_append, Node.statementText_labeled, List.length_cons] at hd
  obtain ⟨d, rfl⟩ : ∃ k, d = k + 1 := ⟨d - 1, by omega⟩
  rw [Node.statementText_labeled]
  simp only [List.append_assoc, List.cons_append]
  refine reads_objectMember (isNameText_of_isVariable hname) (modifierWords_isVariable hname) rfl
    (.inl ⟨_, markAt_closer (by decide : (':', ":") ∈ closers) _, ?_⟩)
  have hstops : Stops 0 (linesText style level [] ++ tail) := by
    refine (closes_linesText_nil tail).stops ?_
    rw [markOf_eq (markAt_linesText_nil tail)]
    decide
  obtain ⟨inner, htext⟩ : ∃ inner, body.statementText style (level + 1) = '\x7b' :: inner := by
    cases hlike <;> exact ⟨_, Node.statementText_block⟩
  have hobject : Reads (object (depth d)) (body.statementText style (level + 1) ++
      (linesText style level [] ++ tail)) (linesText style level [] ++ tail) fun _ => True :=
    hlike.reads_object hbody hdangles hkept (by omega)
  rw [htext, List.cons_append] at hobject ⊢
  exact .blank (skips_operation (d + 1) 0) rfl
    (reads_operation_brace hobject (.of_stops hstops) (Nat.zero_le d))

theorem opensMember_label
    {cur : Cursor} {space rest : List Char} {name : String}
    (hname : isVariable name = true)
    (hspace : ∀ c ∈ space, Text.isBlank c = true)
    (hcur : cur.rest = space ++ (name.toList ++ ':' :: rest)) :
    opensMember cur = true := by
  have htext := isNameText_of_isVariable hname
  have hstatement : name ∉ statementWords := by
    have hall : ∀ word ∈ statementWords, isVariable word = false := by decide +kernel
    intro hmem
    exact Bool.noConfusion (hname.symm.trans (hall name hmem))
  have hfound : wordAt cur.rest = some (name, ':' :: rest) := by
    rw [hcur, wordAt_blanks hspace, wordAt_append htext rfl]
  have hmark : cur.nextMark = "" := by
    rw [Cursor.nextMark_eq, hcur, markOf_blanks hspace, markOf, markAt_of_isNameText htext]
    rfl
  obtain ⟨after, hafter, hrest⟩ := Cursor.exists_word? rfl hfound
  have hcolon : after.nextMark = ":" := by
    rw [Cursor.nextMark_eq, hrest,
      markOf_eq (markAt_closer (by decide : (':', ":") ∈ closers) rest)]
  have hword : after.nextWord = "" := by
    rw [Cursor.nextWord_eq, hrest, wordOf, wordAt_of_stop rfl (by decide) (by decide)]
    rfl
  simp [opensMember, hmark, hafter, hstatement, hcolon, hword]

/-- Behind a value that is a statement of its own, the statement ends. -/
theorem Grammar.reads_expressionStatement_value
    {g : Productions} {text middle rest : List Char}
    (origin : Cursor)
    (hvalue : Reads (g.expression true) text middle fun _ => True)
    (hcomma : markOf middle ≠ ",")
    (hsemicolon : Reads (semicolon true) middle rest fun _ => True) :
    Reads (expressionStatement g origin) text rest fun n => n.kind = .expressionStatement := by
  have hnone : Rounds (fun cur => cur.nextMark == ",") (do
      mark ","
      g.expression true) (fun (_ : Unit) _ => True) [] middle middle := by
    refine .nil fun cur hcur => ?_
    rw [Cursor.nextMark_eq, hcur]
    simpa using hcomma
  have hexpressions : Reads (g.expressions true) text middle fun _ => True := by
    refine hvalue.bind fun first _ => hnone.whileMore.bind fun more hmore => ?_
    cases hmore
    exact .of_pure trivial
  exact hexpressions.bind fun _ _ => hsemicolon.bind fun _ _ => Reads.node fun _ => rfl

/-! ## Statements that are read as others -/

/-- The text of the statement is read as another one, where a statement may end if `free` holds. -/
def Node.Misread (style : Style) (free : Prop) (n : Node) : Prop :=
  ∀ level d tail, 2 * (n.statementText style level ++ tail).length ≤ d → (free → Accepts tail) →
    Gives (statement (depth d)) (n.statementText style level ++ tail) fun found =>
      ¬ found.sameStructure n = true

theorem Node.Misread.inside
    (hn : n.Misread style free)
    {space : List Char}
    (hspace : ∀ c ∈ space, Text.isBlank c = true)
    (hd : 2 * (n.statementText style level ++ tail).length < d)
    (hfree : free → Accepts tail) :
    Gives (depth d).statement (space ++ (n.statementText style level ++ tail)) fun found =>
      ¬ found.sameStructure n = true := by
  obtain ⟨d, rfl⟩ : ∃ k, d = k + 1 := ⟨d - 1, by omega⟩
  exact .blanks skips_statement hspace (hn level d tail (by omega) hfree)

theorem Node.Misread.body
    (hn : n.Misread style free)
    (hd : 2 * (n.bodyText style level ++ tail).length ≤ d)
    (hfree : free → Accepts tail) :
    Gives (depth d).statement (n.bodyText style level ++ tail) fun found =>
      ¬ found.sameStructure n = true := by
  obtain ⟨space, level', hne, hspace, htext⟩ := n.exists_bodyText style level
  have hlength := List.length_pos_of_ne_nil hne
  rw [htext, List.append_assoc, List.length_append] at hd
  rw [htext, List.append_assoc]
  exact hn.inside hspace (by omega) hfree

/-- A part that differs makes the whole differ. -/
theorem yields_otherNode
    {origin : Cursor} {kind : Kind} {slots : List (Field × Slot)} {whole c c' : Node}
    (field : Field)
    (hfields : (slots.map Prod.fst).Nodup)
    (hc : ∀ span, (Node.mk kind span slots).child? field = some c)
    (hwhole : whole.child? field = some c')
    (hother : ¬ c.sameStructure c' = true) :
    Yields (node origin kind slots) fun found => ¬ found.sameStructure whole = true := by
  refine .skip fun cur => .of_pure fun hsame => ?_
  obtain ⟨found, hfound, hsame'⟩ :=
    Node.child?_of_sameStructure (a := .mk kind _ slots) hfields hsame hwhole
  rw [hc] at hfound
  cases hfound
  exact hother hsame'

/-- An `if` whose consequent is misread. -/
theorem gives_consequent
    {test consequent whole : Node} {rest : List Char}
    (htest : test.Plain .operand)
    (hwhole : whole.child? .consequent = some consequent)
    (hd : 2 * (test.text style level).length < d)
    (hconsequent : Gives (depth d).statement rest fun found =>
      ¬ found.sameStructure consequent = true) :
    Gives (statement (depth d))
      ("if".toList ++ ' ' :: '(' :: (test.text style level ++ ')' :: rest)) fun found =>
        ¬ found.sameStructure whole = true := by
  refine .of_goesOn (goesOn_statement_clause rfl rfl) fun origin _ => ?_
  refine .after (reads_condition htest hd) fun _ _ => ?_
  refine hconsequent.bind fun found hfound => ?_
  have hnode (test : Node) (alternate : Option Node) : Yields (node origin .ifStatement
      [(.test, .node test), (.consequent, .node found), (.alternate, .ofOption alternate)])
        fun found => ¬ found.sameStructure whole = true :=
    yields_otherNode .consequent (by simp) (fun _ => rfl) hwhole hfound
  exact .skip fun _ => .ite (.skip fun _ => hnode _ _) (.skip fun _ => hnode _ _)

theorem misread_ifThen
    {test consequent : Node}
    (htest : test.Plain .operand) (hconsequent : consequent.Misread style free) :
    (Node.mk .ifStatement span [(.test, .node test), (.consequent, .node consequent),
      (.alternate, .absent)]).Misread style free := by
  intro level d tail hd hfree
  rw [Node.statementText_ifThen] at hd ⊢
  simp only [List.length_append, List.length_cons] at hd
  simp only [List.append_assoc, List.cons_append]
  refine gives_consequent htest rfl (by omega) (hconsequent.body ?_ hfree)
  rw [List.length_append]
  omega

theorem misread_consequent
    {test consequent alternate : Node}
    (htest : test.Plain .operand)
    (hconsequent : consequent.Misread style (consequent.kind ≠ .blockStatement)) :
    (Node.mk .ifStatement span [(.test, .node test), (.consequent, .node consequent),
      (.alternate, .node alternate)]).Misread style free := by
  intro level d tail hd _
  obtain ⟨space, level', hne, hspace, htext⟩ :=
    Node.exists_elseText style level consequent alternate
  rw [Node.statementText_ifElse, htext] at hd ⊢
  simp only [List.length_append, List.length_cons] at hd
  simp only [List.append_assoc, List.cons_append]
  refine gives_consequent htest rfl (by omega) (hconsequent.body ?_ fun hkind => ?_)
  · simp only [List.length_append]
    omega
  · rw [Node.gapBehind, if_neg hkind]
    exact accepts_word (by decide) (endsName_blanks hne hspace _).1

theorem misread_alternate
    {test consequent alternate : Node}
    (htest : test.Plain .operand)
    (hconsequent : consequent.ReadsBack style (consequent.kind ≠ .blockStatement))
    (hclosed : ¬ consequent.EndsOpen)
    (halternate : alternate.Misread style free) :
    (Node.mk .ifStatement span [(.test, .node test), (.consequent, .node consequent),
      (.alternate, .node alternate)]).Misread style free := by
  intro level d tail hd hfree
  obtain ⟨space, level', hne, hspace, htext⟩ :=
    Node.exists_elseText style level consequent alternate
  have hends := (endsName_blanks hne hspace (alternate.statementText style level' ++ tail)).1
  rw [Node.statementText_ifElse, htext] at hd ⊢
  simp only [List.length_append, List.length_cons] at hd
  simp only [List.append_assoc, List.cons_append]
  refine .of_goesOn (goesOn_statement_clause rfl rfl) fun origin _ => ?_
  refine .after (reads_condition htest (by omega)) fun _ _ => ?_
  refine .after (hconsequent.beforeElse hclosed hends (by omega)) fun _ _ => ?_
  refine .after (Reads.hasKeyword (consequent.wordAt_else hends)) fun _ hyes => ?_
  rw [hyes]
  have hgives : Gives (depth d).statement (space ++ (alternate.statementText style level' ++ tail))
      fun found => ¬ found.sameStructure alternate = true := by
    refine halternate.inside hspace ?_ hfree
    rw [List.length_append]
    omega
  have hsecond : Gives (some <$> (depth d).statement)
      (space ++ (alternate.statementText style level' ++ tail)) fun found =>
        ∃ second, found = some second ∧ ¬ second.sameStructure alternate = true :=
    .map (hgives.imp fun second hsecond => ⟨second, rfl, hsecond⟩)
  refine hsecond.bind fun _ hfound => ?_
  obtain ⟨second, rfl, hother⟩ := hfound
  exact yields_otherNode .alternate (by simp) (fun _ => rfl) rfl hother

theorem misread_while
    {test body : Node}
    (htest : test.Plain .operand) (hbody : body.Misread style free) :
    (Node.mk .whileStatement span
      [(.test, .node test), (.body, .node body)]).Misread style free := by
  intro level d tail hd hfree
  rw [Node.statementText_while] at hd ⊢
  simp only [List.length_append, List.length_cons] at hd
  simp only [List.append_assoc, List.cons_append]
  refine .of_goesOn (goesOn_statement_clause rfl rfl) fun origin _ => ?_
  refine .after (reads_condition htest (by omega)) fun _ _ => ?_
  refine (hbody.body ?_ hfree).bind fun found hfound => ?_
  · rw [List.length_append]
    omega
  · exact yields_otherNode .body (by simp) (fun _ => rfl) rfl hfound

theorem misread_do {test body : Node} (hbody : body.Misread style (body.kind ≠ .blockStatement)) :
    (Node.mk .doWhileStatement span
      [(.body, .node body), (.test, .node test)]).Misread style free := by
  intro level d tail hd _
  rw [Node.statementText_do] at hd ⊢
  simp only [List.length_append, List.length_cons] at hd
  simp only [List.append_assoc, List.cons_append, List.nil_append]
  refine .of_goesOn (goesOn_statement_clause rfl (body.endsName_bodyText _)) fun origin _ => ?_
  refine (hbody.body ?_ fun hkind => ?_).bind fun found hfound => ?_
  · simp only [List.length_append, List.length_cons]
    omega
  · rw [Node.gapBehind, if_neg hkind]
    exact accepts_word (by decide) rfl
  · exact .skip fun _ => .skip fun _ => .skip fun _ =>
      yields_otherNode .body (by simp) (fun _ => rfl) rfl hfound

theorem misread_for
    {init test update : Option Node} {body : Node}
    (hinit : ∀ n ∈ init, n.LoopStart)
    (htest : ∀ n ∈ test, n.Plain .operand)
    (hupdate : ∀ n ∈ update, n.Plain .operand)
    (hbody : body.Misread style free) :
    (Node.mk .forStatement span [(.init, .ofOption init), (.test, .ofOption test),
      (.update, .ofOption update), (.body, .node body)]).Misread style free := by
  intro level d tail hd hfree
  rw [Node.statementText_for fun n hn => (hinit n hn).kind_ne] at hd ⊢
  simp only [List.length_append, List.length_cons] at hd
  simp only [List.append_assoc, List.cons_append]
  refine .of_goesOn (goesOn_statement_clause rfl rfl) fun origin _ => ?_
  refine .after (Reads.hasKeyword_false ?_) fun _ _ => ?_
  · rw [wordOf_space, wordOf, wordAt_of_stop rfl (by decide) (by decide)]
    decide
  refine .after (fails_valueLoopHead hinit (by omega)).attempt fun _ hnone => ?_
  rw [hnone]
  refine .after (reads_countingLoopHead hinit htest hupdate (by omega)) fun head _ => ?_
  refine (hbody.body ?_ hfree).bind fun found hfound => ?_
  · rw [List.length_append]
    omega
  · exact yields_otherNode .body (by simp) (fun _ => rfl) rfl hfound

theorem misread_labeled
    {span' : Span} {name : String} {body : Node}
    (hname : isVariable name = true) (hbody : body.Misread style free) :
    (Node.mk .labeledStatement span [(.label, .node (.identifier name span')),
      (.body, .node body)]).Misread style free := by
  intro level d tail hd hfree
  rw [Node.statementText_labeled] at hd ⊢
  simp only [List.length_append, List.length_cons] at hd
  simp only [List.append_assoc, List.cons_append]
  refine .of_goesOn (goesOn_statement_label hname) fun origin _ => ?_
  refine .after (reads_variableName hname rfl) fun _ _ => ?_
  refine .after (Reads.mark (markAt_closer (by decide : (':', ":") ∈ closers) _)) fun _ _ => ?_
  refine (hbody.inside isBlank_of_mem_space ?_ hfree).bind fun found hfound => ?_
  · rw [List.length_append]
    omega
  · exact yields_otherNode .body (by simp) (fun _ => rfl) rfl hfound

/-! ### Blocks -/

theorem not_linesLoseBlock_nil : ¬ LinesLoseBlock [] := by
  rintro ⟨front, m, rest, hnil, -⟩
  simp at hnil

theorem linesLoseBlock_cons {ns : List Node} :
    LinesLoseBlock (n :: ns) ↔ n.LosesBlock (LineEndsBefore ns) ∨ LinesLoseBlock ns := by
  constructor
  · rintro ⟨front, m, rest, hsplit, hloses⟩
    rcases List.cons_eq_append_iff.mp hsplit with ⟨rfl, hcons⟩ | ⟨front, rfl, rfl⟩
    · cases hcons
      exact .inl hloses
    · exact .inr ⟨front, m, rest, rfl, hloses⟩
  · rintro (hloses | ⟨front, m, rest, rfl, hloses⟩)
    · exact ⟨[], n, ns, rfl, hloses⟩
    · exact ⟨n :: front, m, rest, rfl, hloses⟩

/-- How a statement is read, with or without lost blocks. -/
structure Node.Readable (style : Style) (n : Node) : Prop where
  nested : n.Nested
  readings : n.Readings style
  misread : ∀ free, n.LosesBlock free → n.Misread style free

/-- Lines of which some loses a block are not read back. -/
theorem amiss_lines
    (text : List Node → List Char)
    (hcons : ∀ n ns, text (n :: ns) = gap style level ++ (n.statementText style level ++ text ns))
    (hahead : ∀ ns, (∀ n ∈ ns, n.Nested) → LinesAhead ns (text ns))
    {space : List Char} {ns : List Node}
    (hspace : ∀ c ∈ space, Text.isBlank c = true)
    (hns : ∀ m ∈ n :: ns, m.Readable style)
    (hloses : LinesLoseBlock (n :: ns))
    (hd : 2 * (n.statementText style level ++ text ns).length < d) :
    Amiss (depth d).statement (fun n found => found.sameStructure n = true) (n :: ns)
      (space ++ (n.statementText style level ++ text ns)) := by
  induction ns generalizing n space with
  | nil =>
      rw [List.forall_mem_cons] at hns
      rcases linesLoseBlock_cons.mp hloses with hloses | hloses
      · exact .here ((hns.1.misread _ hloses).inside hspace hd (hahead [] (by simp)).accepts)
      · exact absurd hloses not_linesLoseBlock_nil
  | cons m ns ih =>
      rw [List.forall_mem_cons] at hns
      have hbehind := hahead (m :: ns) fun n hn => (hns.2 n hn).nested
      by_cases hfirst : n.LosesBlock (LineEndsBefore (m :: ns))
      · exact .here ((hns.1.misread _ hfirst).inside hspace hd hbehind.accepts)
      · have hlater := (linesLoseBlock_cons.mp hloses).resolve_left hfirst
        rw [List.length_append] at hd
        refine .later ((hns.1.readings.back _ hfirst).inside hspace (by omega) hbehind.closes
          (fun _ => hbehind.noElse) hbehind.refuses) ?_
        rw [hcons, List.length_append] at hd
        rw [hcons]
        exact ih (isBlank_of_mem_gap style level) hns.2 hlater (by omega)

theorem Node.forall₂_of_sameStructure
    {kind : Kind} {span' : Span} {body ns : List Node}
    (hsame : (Node.mk kind span [(.body, .list body)]).sameStructure
      (.mk kind span' [(.body, .list ns)]) = true) :
    List.Forall₂ (fun n found => found.sameStructure n = true) ns body := by
  obtain ⟨slot, hslot, hsame'⟩ := Node.slot?_of_sameStructure (by simp [Node.fields]) hsame
    (rfl : (Node.mk kind span' [(.body, .list ns)]).slot? .body = some (.list ns))
  cases hslot
  exact (sameSequence_iff.mp hsame').flip

theorem gives_block
    {ns : List Node}
    (hns : ∀ n ∈ ns, n.Readable style)
    (hloses : LinesLoseBlock ns)
    (hd : 2 * (linesText style level ns ++ tail).length ≤ d) :
    Gives (depth d).block ('\x7b' :: (linesText style level ns ++ tail)) fun found =>
      ¬ found.sameStructure (.mk .blockStatement span [(.body, .list ns)]) = true := by
  have hamiss : Amiss (depth d).statement (fun n found => found.sameStructure n = true) ns
      (linesText style level ns ++ tail) := by
    cases ns with
    | nil => exact absurd hloses not_linesLoseBlock_nil
    | cons n ns =>
        simp only [linesText_cons, List.append_assoc] at hd ⊢
        refine amiss_lines (fun ns => linesText style level ns ++ tail) (fun n ns => ?_)
          (fun ns hns => linesAhead_linesText hns level tail)
          (isBlank_of_mem_gap style (level + 1)) hns hloses ?_
        · simp [linesText_cons]
        · simp only [List.length_append, gap, List.length_cons] at hd ⊢
          omega
  refine .after (Reads.start (skipped_of_isFresh rfl)) fun origin _ => ?_
  refine .after (Reads.mark (markAt_brace _)) fun _ _ => ?_
  refine hamiss.whileMore.bind fun body hbody => .skip fun _ => .skip fun cur => .of_pure ?_
  intro hsame
  exact hbody (Node.forall₂_of_sameStructure hsame)

/-- Braces are read as a block or as an expression. -/
theorem Grammar.Gives.braceStatement
    {g : Productions} {origin : Cursor} {input : List Char} {P : Node → Prop}
    (hblock : Gives g.block input P) (hexpression : Gives (expressionStatement g origin) input P) :
    Gives (braceStatement g origin) input P := by
  unfold Grammar.braceStatement
  split
  next =>
    split
    · exact .either hexpression hblock
    · split
      · split
        · exact hexpression
        · exact hblock
      · exact hblock
  next => exact .of_yields .of_unexpected

theorem misread_lines
    {ns : List Node}
    (hns : ∀ n ∈ ns, n.Readable style) (hloses : LinesLoseBlock ns) :
    (Node.mk .blockStatement span [(.body, .list ns)]).Misread style free := by
  intro level d tail hd _
  rw [Node.statementText_lines, List.cons_append] at hd ⊢
  rw [List.length_cons] at hd
  refine .of_goesOn goesOn_statement_brace fun origin _ => ?_
  refine .braceStatement (gives_block hns hloses (by omega)) (.of_yields ?_)
  refine (lone_expressionStatement origin).imp fun found hlone hsame => ?_
  rw [Node.kind_eq_of_sameStructure hsame] at hlone
  cases hlone

/-- A block that reads like an object is read as one. -/
theorem misread_here
    {span' span'' : Span} {name : String} {body : Node}
    (hname : isVariable name = true)
    (hbody : body.Nested)
    (hlike : body.ObjectLike)
    (hdangles : ¬ body.Dangles)
    (hkept : ¬ body.LosesBlock False)
    (hfree : free) :
    (Node.mk .blockStatement span [(.body, .list [.mk .labeledStatement span'
      [(.label, .node (.identifier name span'')), (.body, .node body)]])]).Misread style free := by
  intro level d tail hd haccepts
  obtain ⟨middle, rest, hleaves, hcomma, hsemicolon⟩ := haccepts hfree
  rw [Node.statementText_lines, List.cons_append] at hd ⊢
  rw [List.length_cons, List.length_append] at hd
  obtain ⟨d, rfl⟩ : ∃ k, d = k + 1 := ⟨d - 1, by omega⟩
  refine .of_goesOn goesOn_statement_brace fun origin horigin => ?_
  obtain ⟨inner, hinner, hrest⟩ := Cursor.exists_mark? horigin (markAt_brace _)
  have hopens : opensMember inner = true := by
    rw [linesText_cons, Node.statementText_labeled] at hrest
    simp only [List.append_assoc, List.cons_append] at hrest
    exact opensMember_label hname (isBlank_of_mem_gap style (level + 1)) hrest
  simp only [braceStatement, hinner, hopens, if_true]
  have hobject : Reads (object (depth d)) ('\x7b' :: (linesText style level
      [.mk .labeledStatement span' [(.label, .node (.identifier name span'')),
        (.body, .node body)]] ++ tail)) tail fun _ => True :=
    reads_object_labeled hname hbody hlike hdangles hkept (by omega)
  have hvalue : Reads ((depth (d + 1)).expression true) _ middle fun _ => True :=
    reads_operation_brace hobject hleaves (by omega)
  have hread := reads_expressionStatement_value origin hvalue hcomma hsemicolon
  refine .either_of_reads (hread.imp fun found hkind hsame => ?_)
  rw [Node.kind_eq_of_sameStructure hsame] at hkind
  cases hkind

/-! ### Nested statements -/

theorem Node.LosesBlock.not_isLone (hloses : n.LosesBlock free) : isLone n.kind = false := by
  cases hloses with
  | here => rfl
  | line => rfl
  | last hfield =>
      unfold Kind.lastField? at hfield
      split at hfield
      all_goals first | (rename_i hkind; rw [hkind]; rfl) | cases hfield
  | consequent hkind => rw [hkind]; rfl
  | beforeElse hkind => rw [hkind]; rfl
  | doBody hkind => rw [hkind]; rfl

/-- A statement that ends with its body loses a block only there. -/
theorem Node.LosesBlock.of_body
    {body : Node}
    (hloses : n.LosesBlock free) (hkind : n.kind ∈ bodyLast) (hbody : n.child? .body = some body) :
    body.LosesBlock free := by
  obtain ⟨hif, hlast, -⟩ := bodyLast_facts _ hkind
  have hblock : .blockStatement ∉ bodyLast := by decide
  cases hloses with
  | here => exact absurd hkind hblock
  | line => exact absurd hkind hblock
  | last hfield hc hloses =>
      cases hlast.symm.trans hfield
      cases hbody.symm.trans hc
      exact hloses
  | consequent hkind' => exact absurd hkind' hif
  | beforeElse hkind' => exact absurd hkind' hif
  | doBody hkind' =>
      rw [hkind'] at hkind
      exact absurd hkind (by decide)

/-- A block loses one in its lines, or is lost itself. -/
theorem Node.LosesBlock.of_block
    {ns : List Node}
    (hloses : (Node.mk .blockStatement span [(.body, .list ns)]).LosesBlock free) :
    LinesLoseBlock ns ∨ free ∧ ∃ (span' : Span) (label body : Node), body.ObjectLike ∧
      ns = [.mk .labeledStatement span' [(.label, .node label), (.body, .node body)]] := by
  cases hloses with
  | here hfree hbody => exact .inr ⟨hfree, _, _, _, hbody, rfl⟩
  | line hn => exact .inl ⟨_, _, _, rfl, hn⟩
  | last hfield => cases hfield
  | consequent hkind => cases hkind
  | beforeElse hkind => cases hkind
  | doBody hkind => cases hkind

/-- An `if` without `else` loses a block only in its branch. -/
theorem Node.LosesBlock.of_ifThen
    {test consequent : Node}
    (hloses : (Node.mk .ifStatement span [(.test, .node test), (.consequent, .node consequent),
      (.alternate, .absent)]).LosesBlock free) :
    consequent.LosesBlock free := by
  cases hloses with
  | last hfield hc =>
      cases hfield
      cases hc
  | consequent _ _ hc hloses =>
      cases hc
      exact hloses
  | beforeElse _ ha => cases ha
  | doBody hkind => cases hkind

/-- An `if` with `else` loses a block in one of its branches. -/
theorem Node.LosesBlock.of_ifElse
    {test consequent alternate : Node}
    (hloses : (Node.mk .ifStatement span [(.test, .node test), (.consequent, .node consequent),
      (.alternate, .node alternate)]).LosesBlock free) :
    consequent.LosesBlock (consequent.kind ≠ .blockStatement) ∨ alternate.LosesBlock free := by
  cases hloses with
  | last hfield hc hloses =>
      cases hfield
      cases hc
      exact .inr hloses
  | consequent _ hnone => cases hnone
  | beforeElse _ _ hc hloses =>
      cases hc
      exact .inl hloses
  | doBody hkind => cases hkind

theorem Node.LosesBlock.of_doLoop
    {test body : Node}
    (hloses : (Node.mk .doWhileStatement span [(.body, .node body),
      (.test, .node test)]).LosesBlock free) :
    body.LosesBlock (body.kind ≠ .blockStatement) := by
  cases hloses with
  | last hfield => cases hfield
  | consequent hkind => cases hkind
  | beforeElse hkind => cases hkind
  | doBody _ hc hloses =>
      cases hc
      exact hloses

theorem misread_block
    {ns : List Node}
    (hns : ∀ n ∈ ns, n.Readable style)
    (hdangles : ∀ n ∈ ns, ¬ n.Dangles)
    (hloses : (Node.mk .blockStatement span [(.body, .list ns)]).LosesBlock free) :
    (Node.mk .blockStatement span [(.body, .list ns)]).Misread style free := by
  by_cases hlines : LinesLoseBlock ns
  · exact misread_lines hns hlines
  · obtain ⟨hfree, span', label, body, hlike, rfl⟩ := hloses.of_block.resolve_left hlines
    rw [List.forall_mem_singleton] at hns hdangles
    have hkept : ¬ body.LosesBlock False := fun hloses => hlines
      ⟨[], _, [], rfl, .last rfl rfl (hloses.mono False.elim)⟩
    have hclosed : ¬ body.Dangles := Node.not_dangles_of_child ⟨.body, none⟩ hdangles rfl rfl
    cases hns.nested with
    | labeled hname hbody => exact misread_here hname hbody hlike hclosed hkept hfree

/-- A nested statement in which no `else` belongs to another `if` is read back if it loses no block,
and misread if it does. -/
theorem Node.Nested.readable (hn : n.Nested) (hdangles : ¬ n.Dangles) (style : Style) :
    n.Readable style := by
  refine ⟨hn, hn.readings hdangles style, ?_⟩
  induction hn with
  | empty =>
      intro _ hloses
      cases hloses.not_isLone
  | call =>
      intro _ hloses
      cases hloses.not_isLone
  | @block _ ns hns ih =>
      have hclosed : ∀ n ∈ ns, ¬ n.Dangles := by
        intro n hn
        obtain ⟨i, hi⟩ := List.mem_iff_getElem?.mp hn
        exact Node.not_dangles_of_child ⟨.body, some i⟩ hdangles rfl hi
      exact fun _ => misread_block (fun n hn =>
        ⟨hns n hn, (hns n hn).readings (hclosed n hn) style, ih n hn (hclosed n hn)⟩) hclosed
  | @ifThen _ _ consequent htest _ ih =>
      have hclosed : ¬ consequent.Dangles :=
        Node.not_dangles_of_child ⟨.consequent, none⟩ hdangles rfl rfl
      intro free hloses
      exact misread_ifThen htest (ih hclosed free hloses.of_ifThen)
  | @ifElse _ _ consequent alternate htest hconsequent _ ih ih' =>
      have hclosed : ¬ consequent.Dangles :=
        Node.not_dangles_of_child ⟨.consequent, none⟩ hdangles rfl rfl
      have hclosed' : ¬ alternate.Dangles :=
        Node.not_dangles_of_child ⟨.alternate, none⟩ hdangles rfl rfl
      intro free hloses
      by_cases hfirst : consequent.LosesBlock (consequent.kind ≠ .blockStatement)
      · exact misread_consequent htest (ih hclosed _ hfirst)
      · exact misread_alternate htest ((hconsequent.readings hclosed style).back _ hfirst)
          (fun hopen => hdangles (.here rfl rfl rfl hopen))
          (ih' hclosed' free (hloses.of_ifElse.resolve_left hfirst))
  | whileLoop htest _ ih =>
      intro free hloses
      exact misread_while htest
        (ih (Node.not_dangles_of_child ⟨.body, none⟩ hdangles rfl rfl) free
          (hloses.of_body (by decide : Kind.whileStatement ∈ bodyLast) rfl))
  | @doLoop _ _ body _ _ ih =>
      have hclosed : ¬ body.Dangles := Node.not_dangles_of_child ⟨.body, none⟩ hdangles rfl rfl
      intro free hloses
      exact misread_do (ih hclosed _ hloses.of_doLoop)
  | forLoop hinit htest hupdate _ ih =>
      intro free hloses
      exact misread_for hinit htest hupdate
        (ih (Node.not_dangles_of_child ⟨.body, none⟩ hdangles rfl rfl) free
          (hloses.of_body (by decide : Kind.forStatement ∈ bodyLast) rfl))
  | labeled hname _ ih =>
      intro free hloses
      exact misread_labeled hname
        (ih (Node.not_dangles_of_child ⟨.body, none⟩ hdangles rfl rfl) free
          (hloses.of_body (by decide : Kind.labeledStatement ∈ bodyLast) rfl))

end Graft
