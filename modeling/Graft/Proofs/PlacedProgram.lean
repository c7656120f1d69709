import Graft.Proofs.PlacedExpression

/-!
# Programs in textual order

Every production for a statement reads its nodes in their roles and in textual order, and so does
the whole grammar, however often its knot is tied.
-/

namespace Graft.Grammar

/-- The parser reads a statement whose first token stands at the cursor. -/
abbrev StatementFrom (origin : Cursor) (p : Parser Node) : Prop :=
  From origin.offset p fun n => Stand .statement origin.offset [n]

namespace Productions.Places

variable {g : Productions} (hg : g.Places) {lo : Nat} {origin : Cursor}
include hg

/-! ## Declarations -/

theorem expressionStatement : StatementFrom origin (expressionStatement g origin) := by
  refine .bind (hg.expressions true) fun inner mid hinner => .skip (.semicolon true) fun _ => ?_
  exact .nodeOf (Nat.le_refl _) ⟨nofun, rfl, rfl⟩ hinner.lt (.node rfl hinner .nil)

theorem declarator : From lo (declarator g) fun result => Stand .operand lo [result.1] := by
  have hwhole : ∀ {mid : Nat} {p : Parser Node} {filled : Bool}, From mid p (fun n =>
      Stand .operand lo [n]) → From mid (do return (← p, filled)) fun result =>
        Stand .operand lo [result.1] :=
    fun hp => .bind hp fun _ _ hn => .of_pure fun _ hhi => hn.mono_right hhi
  refine .start fun origin horigin => .bind hg.binding fun name mid hname => ?_
  refine .skip (.hasMark _) fun _ => .ite ?_ ?_
  · refine .bind (hg.expression true) fun value stop hvalue => ?_
    exact hwhole (.nodeOf horigin ⟨nofun, rfl, rfl⟩ (hname.append hvalue.node).lt
      (.node rfl hname (.node rfl hvalue.node .nil)))
  · exact hwhole (.nodeOf horigin ⟨nofun, rfl, rfl⟩ hname.lt (.node rfl hname (.absent rfl .nil)))

omit hg in
theorem declarationEnd (afterOperand : Bool) :
    From lo (declarationEnd afterOperand) fun _ hi => lo ≤ hi := by
  have hmark : From lo (mark ";") fun _ hi => lo ≤ hi :=
    (From.mark _).imp fun _ _ hlt => Nat.le_of_lt hlt
  refine .look fun cur hcur => ?_
  split
  next stop hend =>
    have hstop := Cursor.offset_le_of_automaticEnd? hend
    exact .of_set (by omega)
  next => exact .ite (.skip (.of_throw _) fun _ => hmark) hmark

theorem declarators : From lo (declarators g) (Stand .operand lo) := by
  refine .bind hg.declarator fun first mid hfirst => ?_
  refine .bind (.nodesOf (f := Prod.fst) ?_) fun more stop hmore => ?_
  · exact fun lo => .past (.mark _) fun _ => hg.declarator.imp fun _ _ hn =>
      hn.mono_left (Nat.le_succ lo)
  · exact .skip (declarationEnd _) fun _ => .of_pure fun hi hhi =>
      (hfirst.append hmore).mono_right hhi

theorem variableDeclaration (word : String) :
    StatementFrom origin (variableDeclaration g origin word) := by
  refine .past (.keyword _) fun _ => .bind hg.declarators fun list mid hlist => ?_
  exact .node (Nat.le_refl _) ⟨nofun, rfl, rfl⟩ (.text rfl (.list rfl hlist .nil))

theorem functionDeclaration : StatementFrom origin (functionDeclaration g origin) := by
  refine .skip (.hasKeyword _) fun _ => .past (.keyword _) fun _ => .skip (.hasMark _) fun _ => ?_
  refine .bind .variableName fun name mid hname => .bind hg.parameters fun params next hparams => ?_
  have hname' : Stand .operand (origin.offset + 1) (some name).toList mid := hname.stand
  refine .bind hg.block fun body stop hbody => .node (Nat.le_refl _) ⟨nofun, rfl, rfl⟩ ?_
  exact laid_functionSlots (.inr rfl) hname' hparams hbody

theorem usingDeclaration : StatementFrom origin (usingDeclaration g origin) := by
  refine .skip (.hasKeyword _) fun _ => .past (.keyword _) fun _ => ?_
  refine .skip (hg.declarators.imp fun _ _ hns => hns.le) fun _ => ?_
  exact .rawNode (Nat.le_refl _) (Nat.lt_succ_self _)

theorem declaration? :
    From origin.offset (declaration? g origin) fun found =>
      Stand .statement origin.offset found.toList := by
  refine .ite (.map (hg.variableDeclaration _)) (.ite (.map (hg.variableDeclaration _)) ?_)
  refine .ite (.map hg.functionDeclaration) (.ite ?_ (.ite ?_ ?_))
  · refine .skip hg.decorators fun _ => .past hg.classTail fun _ => .map ?_
    exact .rawNode (Nat.le_refl _) (Nat.lt_succ_self _)
  · exact .attempt hg.usingDeclaration fun hi hhi => .of_nil hhi
  · exact .of_pure fun hi hhi => .of_nil hhi

/-! ## Loops and branches -/

theorem ifStatement : StatementFrom origin (ifStatement g origin) := by
  refine .past (.keyword _) fun _ => .bind hg.parenthesized fun test mid htest => ?_
  refine .bind (hg.statement _) fun consequent stop hconsequent => .skip (.hasKeyword _) fun _ => ?_
  refine .iteBind (P := fun alternate => Stand .statement stop alternate.toList)
    (.map (hg.statement _)) ?_ ?_
  · exact .of_pure fun hi hhi => .of_nil hhi
  · intro alternate next halternate
    exact .node (Nat.le_refl _) ⟨nofun, rfl, rfl⟩
      (.node rfl htest (.node rfl hconsequent (.option rfl halternate .nil)))

omit hg in
theorem stand_loopVariable
    (word : String)
    {name : Node} {hi : Nat}
    (hname : Stand .operand lo [name] hi) :
    Stand .statement lo [loopVariable word name] hi := by
  obtain ⟨hstart, hspan, hstop⟩ := hname.row
  have hhere : Stand .operand name.span.start [name] name.span.stop :=
    ⟨⟨Nat.le_refl _, hspan, Nat.le_refl _⟩, hname.placed, hname.read⟩
  have hdeclarator : Stand .operand name.span.start
      [.mk .variableDeclarator name.span [(.id, .node name), (.init, .absent)]] name.span.stop :=
    Laid.stand (.node rfl hhere (.absent rfl .nil)) ⟨nofun, rfl, rfl⟩ (Nat.le_refl _) hspan
      (Nat.le_refl _)
  exact Laid.stand (.text rfl (.list rfl hdeclarator .nil)) ⟨nofun, rfl, rfl⟩ hstart
    hspan hstop

theorem skipInitial : From lo (skipInitial g) fun _ hi => lo ≤ hi := by
  refine .skip (.hasMark _) fun _ => .ite ?_ (.of_pure fun _ hhi => hhi)
  refine .skip (.either (.bind (hg.expression false) fun value mid hvalue => ?_) ?_) fun _ => ?_
  · refine .look fun _ _ => .ite (.of_pure fun hi hhi => ?_) .of_unexpected
    exact Nat.le_trans hvalue.le hhi
  · exact (hg.operation _ _ _).imp fun _ _ ho => ho.le
  · exact .of_pure fun _ hhi => hhi

/-- The kind of a loop over values and the two sides of its head. -/
def LaidLoopHead (lo : Nat) (head : Node × Kind × Node) (hi : Nat) : Prop :=
  (head.2.1 = .forOfStatement ∨ head.2.1 = .forInStatement) ∧
    Laid head.2.1 lo [(.left, .node head.1), (.right, .node head.2.2)] hi

theorem valueLoopHead : From lo (valueLoopHead g) (LaidLoopHead lo) := by
  have hright : ∀ {mid : Nat} (left : Node) (kind : Kind),
      kind = .forOfStatement ∨ kind = .forInStatement → Stand .anything lo [left] mid →
      From mid (do
        let right ← g.expressions false
        mark ")"
        return (left, kind, right)) (LaidLoopHead lo) := by
    intro mid left kind hkind hleft
    refine .bind (hg.expressions false) fun right stop hright => .past (.mark _) fun _ => ?_
    refine .of_pure fun hi hhi => ⟨hkind, ?_⟩
    rcases hkind with rfl | rfl
    all_goals exact .node rfl hleft (.node rfl hright (.done (by omega)))
  have htail : ∀ (left : Node) (mid : Nat), Stand .anything lo [left] mid → From mid (do
      let kind ←
        if ← hasKeyword "of" then pure Kind.forOfStatement
        else
          keyword "in"
          pure Kind.forInStatement
      let right ← g.expressions false
      mark ")"
      return (left, kind, right)) (LaidLoopHead lo) := by
    intro left mid hleft
    refine .skip (.hasKeyword _) fun _ => .ite (hright left _ (.inl rfl) hleft) ?_
    exact .pass (.keyword _) fun _ => hright left _ (.inr rfl) hleft
  refine .past (.mark _) fun _ => .next fun cur hcur => .ite ?_ (.ite ?_ ?_)
  · refine .pass (.keyword _) fun _ => .bind hg.binding fun name mid hname => ?_
    have hleft := htail (loopVariable cur.nextWord name) mid
      ((stand_loopVariable _ hname).mono_left (Nat.le_succ lo)).anything
    exact .ite (.skip hg.skipInitial fun _ => hleft) hleft
  · refine .bind (.either hg.parenthesized hg.target) fun left mid hleft => ?_
    exact htail left mid (hleft.mono_left (Nat.le_succ lo)).anything
  · refine .bind (.either (hg.pattern _) hg.target) fun left mid hleft => ?_
    exact htail left mid (hleft.mono_left (Nat.le_succ lo)).anything

theorem clause : From lo (clause g) fun result => Stand .operand lo result.toList := by
  refine .skip (.hasMark _) fun _ => .ite (.of_pure fun hi hhi => .of_nil hhi) ?_
  refine .bind (hg.expressions false) fun inner mid hinner => .past (.mark _) fun _ => ?_
  exact .of_pure fun hi hhi => hinner.mono_right (by omega)

theorem countingLoopHead :
    From lo (countingLoopHead g) fun head => Laid .forStatement lo
      [(.init, .ofOption head.1), (.test, .ofOption head.2.1), (.update, .ofOption head.2.2)] := by
  refine .past (.mark _) fun _ => .start fun cur hcur => ?_
  refine .iteBind (P := fun init => Stand .anything cur.offset init.toList)
    (.map ((hg.variableDeclaration _).imp fun _ _ hn => hn.anything))
    (hg.clause.imp fun _ _ hn => hn.anything) fun init mid hinit => ?_
  refine .bind hg.clause fun test stop htest => .look fun _ _ => ?_
  refine .iteBind (P := fun update => Stand .operand stop update.toList) ?_
    (.map (hg.expressions false)) ?_
  · exact .of_pure fun hi hhi => .of_nil hhi
  · refine fun update next hupdate => .past (.mark _) fun _ => .of_pure fun hi hhi => ?_
    exact .option rfl (hinit.mono_left (by omega))
      (.option rfl htest (.option rfl hupdate (.done (by omega))))

theorem forStatement : StatementFrom origin (forStatement g origin) := by
  refine .past (.keyword _) fun _ => .skip (.hasKeyword _) fun _ => ?_
  refine .bind (.attempt (P := fun head hi => origin.offset + 1 ≤ hi ∧
    ∀ found, head = some found → LaidLoopHead (origin.offset + 1) found hi) ?_ ?_) ?_
  · refine hg.valueLoopHead.imp fun head hi hhead => ⟨hhead.2.le, ?_⟩
    rintro _ ⟨⟩
    exact hhead
  · exact fun hi hhi => ⟨hhi, nofun⟩
  rintro head mid ⟨hmid, hhead⟩
  split
  next left kind right =>
    obtain ⟨hkind, hlaid⟩ := hhead _ rfl
    refine .bind (hg.statement _) fun body stop hbody => ?_
    rcases hkind with rfl | rfl
    all_goals exact .node (Nat.le_refl _) ⟨nofun, rfl, rfl⟩ (hlaid.append (.node rfl hbody .nil))
  next =>
    refine .bind (hg.countingLoopHead.mono hmid) ?_
    rintro ⟨init, test, update⟩ next hlaid
    refine .bind (hg.statement _) fun body stop hbody => ?_
    exact .node (Nat.le_refl _) ⟨nofun, rfl, rfl⟩ (hlaid.append (.node rfl hbody .nil))

theorem whileStatement : StatementFrom origin (whileStatement g origin) := by
  refine .past (.keyword _) fun _ => .bind hg.parenthesized fun test mid htest => ?_
  refine .bind (hg.statement _) fun body stop hbody => ?_
  exact .node (Nat.le_refl _) ⟨nofun, rfl, rfl⟩ (.node rfl htest (.node rfl hbody .nil))

theorem doStatement : StatementFrom origin (doStatement g origin) := by
  refine .past (.keyword _) fun _ => .bind (hg.statement _) fun body mid hbody => ?_
  refine .pass (.keyword _) fun _ => .bind hg.parenthesized fun test stop htest => ?_
  refine .skip (.attempt (.semicolon false) fun _ hhi => hhi) fun _ => ?_
  exact .node (Nat.le_refl _) ⟨nofun, rfl, rfl⟩ (.node rfl hbody (.node rfl htest .nil))

/-! ## Jumps, handlers and cases -/

theorem returnStatement : StatementFrom origin (returnStatement g origin) := by
  refine .past (.keyword _) fun _ => .skip (.attempt (.semicolon false) fun _ hhi => hhi) ?_
  intro ended
  cases ended with
  | some _ => exact .node (Nat.le_refl _) ⟨nofun, rfl, rfl⟩ (.absent rfl .nil)
  | none =>
      refine .bind (hg.expressions true) fun argument mid hargument => ?_
      refine .skip (.semicolon true) fun _ => ?_
      exact .node (Nat.le_refl _) ⟨nofun, rfl, rfl⟩ (.node rfl hargument .nil)

theorem throwStatement : StatementFrom origin (throwStatement g origin) := by
  refine .past (.keyword _) fun _ => .bind (hg.expressions true) fun argument mid hargument => ?_
  refine .skip (.semicolon true) fun _ => ?_
  exact .node (Nat.le_refl _) ⟨nofun, rfl, rfl⟩ (.node rfl hargument .nil)

omit hg in
theorem jumpStatement
    (word : String)
    {kind : Kind}
    (hkind : kind = .breakStatement ∨ kind = .continueStatement) :
    StatementFrom origin (jumpStatement origin word kind) := by
  refine .past (.keyword _) fun _ => .skip (.attempt (.semicolon false) fun _ hhi => hhi) ?_
  intro ended
  rcases hkind with rfl | rfl
  all_goals
    cases ended with
    | some _ => exact .node (Nat.le_refl _) ⟨nofun, rfl, rfl⟩ (.absent rfl .nil)
    | none =>
        refine .bind .variableName fun label mid hlabel => .skip (.semicolon false) fun _ => ?_
        exact .node (Nat.le_refl _) ⟨nofun, rfl, rfl⟩ (.node rfl hlabel.stand .nil)

theorem catchClause : From lo (catchClause g) fun n => Stand .operand lo [n] := by
  refine .start fun origin horigin => .past (.keyword _) fun _ => .skip (.hasMark _) fun _ => ?_
  have hbody : ∀ {mid : Nat} (param : Option Node),
      Stand .operand (origin.offset + 1) param.toList mid → From mid (do
        let body ← g.block
        node origin .catchClause [(.param, .ofOption param), (.body, .node body)])
        fun n => Stand .operand lo [n] := by
    intro mid param hparam
    refine .bind hg.block fun body stop hbody => ?_
    exact .node horigin ⟨nofun, rfl, rfl⟩ (.option rfl hparam (.node rfl hbody .nil))
  refine .ite (.bind hg.binding fun name mid hname => .pass (.mark _) fun _ => ?_) ?_
  · exact hbody (some name) hname
  · exact hbody .none (.of_nil (Nat.le_refl _))

theorem tryStatement : StatementFrom origin (tryStatement g origin) := by
  refine .past (.keyword _) fun _ => .bind hg.block fun block mid hblock => .look fun _ _ => ?_
  refine .iteBind (P := fun handler => Stand .operand mid handler.toList)
    (.map hg.catchClause) ?_ ?_
  · exact .of_pure fun hi hhi => .of_nil hhi
  refine fun handler stop hhandler => .skip (.hasKeyword _) fun _ => ?_
  refine .iteBind (P := fun finalizer => Stand .statement stop finalizer.toList)
    (.map hg.block) ?_ ?_
  · exact .of_pure fun hi hhi => .of_nil hhi
  · intro finalizer next hfinalizer
    exact .node (Nat.le_refl _) ⟨nofun, rfl, rfl⟩
      (.node rfl hblock (.option rfl hhandler (.option rfl hfinalizer .nil)))

theorem switchCase : From lo (switchCase g) fun n => Stand .operand lo [n] := by
  refine .start fun origin horigin => .skip (.hasKeyword _) fun isDefault => ?_
  have hbody : ∀ {mid : Nat} (test : Option Node), Stand .operand origin.offset test.toList mid →
      From mid (do
        mark ":"
        let body ← whileMore (fun cur =>
          cur.nextMark != "\x7d" && !(["case", "default"].contains cur.nextWord)) g.statement
        node origin .switchCase [(.test, .ofOption test), (.consequent, .list body)])
        fun n => Stand .operand lo [n] := by
    intro mid test htest
    refine .past (.mark _) fun _ => .bind (.nodes hg.statement) fun body stop hbody => ?_
    have hmid := htest.le
    have hstop := hbody.le
    have hbehind := hbody.mono_left (Nat.le_succ mid)
    exact .nodeOf horigin ⟨nofun, rfl, rfl⟩ (by omega)
      (.option rfl htest (.list rfl hbehind .nil))
  refine .ite (hbody .none (.of_nil (Nat.le_refl _))) (.pass (.keyword _) fun _ => ?_)
  exact .bind (P := fun test => Stand .operand origin.offset test.toList)
    (.map (hg.expressions false)) fun test mid htest => hbody test htest

theorem switchStatement : StatementFrom origin (switchStatement g origin) := by
  refine .past (.keyword _) fun _ => .bind hg.parenthesized fun value mid hvalue => ?_
  refine .pass (.mark _) fun _ => .bind (.nodes fun _ => hg.switchCase) fun cases stop hcases => ?_
  refine .pass (.mark _) fun _ => .node (Nat.le_refl _) ⟨nofun, rfl, rfl⟩ ?_
  exact .node rfl hvalue (.list rfl hcases .nil)

/-! ## Statements that keep their text -/

theorem withStatement : StatementFrom origin (withStatement g origin) := by
  refine .past (.keyword _) fun _ => .skip (hg.parenthesized.imp fun _ _ hn => hn.le) fun _ => ?_
  refine .skip ((hg.statement _).imp fun _ _ hn => hn.le) fun _ => ?_
  exact .rawNode (Nat.le_refl _) (Nat.lt_succ_self _)

omit hg in
theorem stringAhead : From lo stringLiteral fun _ hi => lo ≤ hi :=
  From.stringLiteral.imp fun _ _ hn => hn.stand.le

omit hg in
theorem variableAhead : From lo variableName fun _ hi => lo ≤ hi :=
  From.variableName.imp fun _ _ hn => hn.stand.le

omit hg in
theorem moduleName : From lo moduleName fun _ hi => lo ≤ hi := by
  refine .next fun cur _ => ?_
  split
  · exact .skip stringAhead fun _ => .of_pure fun _ hhi => hhi
  · refine .skip (From.anyName.imp fun _ _ hn => hn.stand.le) fun _ => ?_
    exact .of_pure fun _ hhi => hhi

omit hg in
theorem moduleNames : From lo moduleNames fun _ hi => lo ≤ hi := by
  refine .pass (.mark _) fun _ => .skip (.ahead fun lo => .skip moduleName fun _ => ?_) fun _ => ?_
  · have hcomma : From lo (do if (← get).nextMark != "\x7d" then mark ",") fun _ hi => lo ≤ hi := by
      refine .look fun _ _ => .ite ?_ (.of_pure fun _ hhi => hhi)
      exact (From.mark _).imp fun _ _ hlt => Nat.le_of_lt hlt
    exact .skip (.hasKeyword _) fun _ => .ite (.skip moduleName fun _ => hcomma) hcomma
  · exact (From.mark _).imp fun _ _ hlt => Nat.le_of_lt hlt

omit hg in
theorem fromClause : From lo fromClause fun _ hi => lo ≤ hi :=
  .pass (.keyword _) fun _ => .skip stringAhead fun _ => .of_pure fun _ hhi => hhi

omit hg in
theorem importedNames : From lo importedNames fun _ hi => lo ≤ hi := by
  refine .skip (.hasMark _) fun _ => .ite (.pass (.keyword _) fun _ => ?_) moduleNames
  exact .skip variableAhead fun _ => .of_pure fun _ hhi => hhi

theorem importStatement : StatementFrom origin (importStatement g origin) := by
  have hend : From (origin.offset + 1) (do
      if ← hasKeyword "with" then
        let _ ← Grammar.object g
      semicolon false
      rawNode origin) fun n => Stand .statement origin.offset [n] := by
    have hraw : From (origin.offset + 1) (do
        semicolon false
        rawNode origin) fun n => Stand .statement origin.offset [n] :=
      .skip (.semicolon false) fun _ => .rawNode (Nat.le_refl _) (Nat.lt_succ_self _)
    refine .skip (.hasKeyword _) fun _ => .ite (.skip (hg.object.imp fun _ _ hn => hn.le) ?_) hraw
    exact fun _ => hraw
  refine .past (.keyword _) fun _ => .next fun cur _ => ?_
  dsimp only
  split
  · exact .skip stringAhead fun _ => hend
  · refine .ite (.skip variableAhead fun _ => .skip (.hasMark _) fun _ => .ite ?_ ?_) ?_
    · exact .skip importedNames fun _ => .skip fromClause fun _ => hend
    · exact .skip fromClause fun _ => hend
    · exact .skip importedNames fun _ => .skip fromClause fun _ => hend

theorem exportStatement : StatementFrom origin (exportStatement g origin) := by
  have hraw : From (origin.offset + 1) (rawNode origin) fun n =>
      Stand .statement origin.offset [n] :=
    .rawNode (Nat.le_refl _) (Nat.lt_succ_self _)
  have hend : From (origin.offset + 1) (do
      semicolon false
      rawNode origin) fun n => Stand .statement origin.offset [n] :=
    .skip (.semicolon false) fun _ => hraw
  refine .past (.keyword _) fun _ => .next fun cur _ => .ite ?_ (.ite ?_ ?_)
  · refine .pass (.mark _) fun _ => .skip (.hasKeyword _) fun _ => .ite ?_ ?_
    · exact .skip moduleName fun _ => .skip fromClause fun _ => hend
    · exact .skip fromClause fun _ => hend
  · refine .skip moduleNames fun _ => .look fun _ _ => .ite (.skip fromClause fun _ => hend) hend
  · refine .skip (.hasKeyword _) fun isDefault => .start fun inner hinner => ?_
    refine .bind hg.declaration? fun found mid hfound => ?_
    have hmid : origin.offset + 1 ≤ mid := Nat.le_trans hinner hfound.le
    cases found with
    | some _ => exact hraw.mono hmid
    | none =>
        refine From.mono (.ite ?_ (.skip .of_unexpected fun _ => hraw)) hmid
        exact .skip (hg.expressionAhead true) fun _ => .skip (.semicolon true) fun _ => hraw

/-! ## All statements -/

theorem braceStatement : StatementFrom origin (braceStatement g origin) := by
  unfold Grammar.braceStatement
  split
  · refine .ite (.either hg.expressionStatement hg.block) ?_
    split
    · exact .ite hg.expressionStatement hg.block
    · exact hg.block
  · exact .of_unexpected

theorem labeledStatement : StatementFrom origin (labeledStatement g origin) := by
  refine .bind .variableName fun label mid hlabel => .pass (.mark _) fun _ => ?_
  refine .bind (hg.statement _) fun body stop hbody => ?_
  exact .nodeOf (Nat.le_refl _) ⟨nofun, rfl, rfl⟩ (Nat.lt_of_lt_of_le hlabel.stand.lt hbody.le)
    (.node rfl hlabel.stand (.node rfl hbody .nil))

theorem wordStatement (word : String) (after : Cursor) :
    StatementFrom origin (wordStatement g origin word after) := by
  refine .ite hg.labeledStatement (.bind hg.declaration? fun found mid hfound => ?_)
  cases found with
  | some n => exact .of_pure fun hi hhi => hfound.mono_right hhi
  | none =>
      refine From.mono ?_ hfound.le
      dsimp only
      split
      · exact hg.ifStatement
      · exact hg.forStatement
      · exact hg.whileStatement
      · exact hg.doStatement
      · exact hg.returnStatement
      · exact hg.throwStatement
      · exact jumpStatement _ (.inl rfl)
      · exact jumpStatement _ (.inr rfl)
      · exact hg.tryStatement
      · exact hg.switchStatement
      · exact hg.withStatement
      · refine .past (.keyword _) fun _ => .skip (.semicolon false) fun _ => ?_
        exact .node (Nat.le_refl _) ⟨nofun, rfl, rfl⟩ .nil
      · exact .ite hg.expressionStatement hg.importStatement
      · exact .ite hg.expressionStatement (.either hg.exportStatement hg.expressionStatement)
      · exact hg.expressionStatement

theorem stated : From lo (Grammar.statement g) fun n => Stand .statement lo [n] := by
  refine .operandStart fun origin horigin => ?_
  have hraw : From (origin.offset + 1) (rawNode origin) fun n =>
      Stand .statement origin.offset [n] :=
    .rawNode (Nat.le_refl _) (Nat.lt_succ_self _)
  refine From.imp (P := fun n => Stand .statement origin.offset [n]) ?_
    fun _ _ hn => hn.mono_left horigin
  split
  · exact hg.wordStatement _ _
  · refine .ite hg.braceStatement (.ite ?_ (.ite ?_ hg.expressionStatement))
    · refine .past (.mark _) fun _ => ?_
      exact .node (Nat.le_refl _) ⟨nofun, rfl, rfl⟩ .nil
    · refine .bind (.attempt (P := fun found =>
        Stand .statement origin.offset found.toList) ?_ ?_) ?_
      · refine .skip hg.decorators fun _ => .start fun inner hinner => ?_
        exact hg.exportStatement.imp fun _ _ hn => hn.mono_left hinner
      · exact fun hi hhi => .of_nil hhi
      · intro found mid hfound
        cases found with
        | some n => exact hraw.mono hfound.lt
        | none =>
            refine From.mono (.skip hg.decorators fun _ => ?_) hfound.le
            exact .past hg.classTail fun _ => hraw

theorem unrolled : (unrolled g).Places :=
  ⟨fun _ => hg.operated, fun _ => hg.constructed, fun _ => hg.patterned, fun _ => hg.elementBody,
    fun _ => hg.stated⟩

end Productions.Places

/-! ## The grammar -/

theorem grammar_places (length : Nat) : (grammar length).Places := by
  unfold grammar
  generalize 4 * length + 16 = depth
  induction depth with
  | zero => exact Productions.none_places
  | succ depth ih => exact ih.unrolled

theorem at_interpreterLine (cur : Cursor) :
    At cur interpreterLine (Stand .statement cur.skip.offset) := by
  refine .start ?_
  split
  next hstart =>
    have hline : cur.skip.offset <
        (cur.skip.advance (cur.skip.rest.takeWhile (· ≠ '\n')).length).offset := by
      cases hrest : cur.skip.rest with
      | nil =>
          rw [hrest] at hstart
          contradiction
      | cons c tail =>
          have hmark : c = '#' := by
            rw [hrest] at hstart
            simp [startsWith, List.isPrefixOf] at hstart
            exact hstart.1.symm
          have hsome : cur.skip.rest ≠ [] := by
            rw [hrest]
            exact List.cons_ne_nil c tail
          exact Cursor.offset_lt_advance hsome (by simp [hmark])
    refine .set (.bind (P := fun n => Stand .statement cur.skip.offset [n])
      (.rawNode (Nat.le_refl _) hline) fun n mid hn => ?_)
    exact .of_pure fun hi hhi => hn.mono_right hhi
  next => exact .of_pure fun hi hhi => .of_nil hhi

/-- A program may be empty, but its statements stand in a row. -/
theorem placed_program {g : Productions} (hg : g.Places) (cur : Cursor) :
    At cur (program g) fun root _ => root.Placed ∧ root.Read := by
  have hblanks := cur.offset_blanks_le_skip
  refine .get (.bind (at_interpreterLine cur) fun head mid hhead => ?_)
  refine .bind (.nodes hg.statement) fun body stop hbody => .get fun last hlast => .set ?_
  intro next hnext root _ hrun
  cases hrun
  have hend := last.offset_le_advance last.rest.length
  have hall := (hhead.append hbody).weaken hblanks (Nat.le_trans hlast (Nat.le_trans hend hnext))
  have hlaid : Laid .program (cur.advance (cur.rest.takeWhile Text.isBlank).length).offset
      [(.body, .list (head ++ body))] next.offset := .list rfl hall .nil
  exact ⟨.of_slots (.row nofun hlaid.row) hlaid.placed, Node.read_mk rfl hlaid.read⟩

end Graft.Grammar

namespace Graft

theorem placed_and_read_of_parse
    {source : String} {root : Node}
    (hparse : parse source = .ok root) :
    root.Placed ∧ root.Read := by
  unfold parse at hparse
  dsimp only at hparse
  split at hparse
  next program next hrun =>
    cases hparse
    exact Grammar.placed_program (Grammar.grammar_places _) _ _ _ hrun
  next => cases hparse

/-- A program that was read stands in textual order. -/
theorem placed_of_parse
    {source : String} {root : Node}
    (hparse : parse source = .ok root) :
    root.Placed :=
  (placed_and_read_of_parse hparse).1

/-- A program that was read has the shape of reading. -/
theorem read_of_parse
    {source : String} {root : Node}
    (hparse : parse source = .ok root) :
    root.Read :=
  (placed_and_read_of_parse hparse).2

/-- What was read of a half of a rule, and the expression of a statement at its top. -/
theorem Fragment.read_of_parse
    {text : String} {side : Side} {fragment : Fragment}
    (hparse : Fragment.parse text side = .ok fragment) :
    (∀ n ∈ fragment.nodes, n.Read) ∧ ∀ top, fragment = .expression top → top.IsOperand := by
  obtain ⟨program, hprogram, -, hfragment⟩ := Fragment.parse_eq_ok hparse
  have hread := Graft.read_of_parse hprogram
  have hbody : ∀ n ∈ program.list .body, n.Read := by
    intro n hn
    obtain ⟨items, hslot, hitem⟩ := Node.mem_list hn
    exact hread.child (Node.mem_slots_of_slot? hslot) hitem
  rcases hfragment with rfl | ⟨top, htop, rfl⟩
  · exact ⟨hbody, nofun⟩
  · unfold Fragment.loneExpression? at htop
    split at htop
    next only honly =>
      split_ifs at htop with hkind
      have hslot := Node.mem_slots_of_slot? (Node.child?_eq_some_iff.mp htop)
      have honly := hbody only (by simp [honly])
      have htop : top ∈ (Slot.node top).children := by simp [Slot.children]
      refine ⟨fun n hn => ?_, ?_⟩
      · rw [List.mem_singleton.mp hn]
        exact honly.child hslot htop
      · rintro _ ⟨⟩
        exact honly.here.operand hkind _ hslot _ htop
    next => cases htop

end Graft
