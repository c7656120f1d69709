import Graft.Proofs.Placed

/-!
# Expressions in textual order

Every production for an expression or a pattern reads its nodes in textual order, if the
productions that it refers to do.  What is kept as source text is read only to find its end; there
it is enough that the cursor does not move back.
-/

namespace Graft.Grammar

theorem laid_functionSlots
    {kind : Kind} {lo mid next stop : Nat} {name : Option Node} {params : List Node} {body : Node}
    {async generator : Bool}
    (hkind : kind = .functionExpression ∨ kind = .functionDeclaration)
    (hname : Stand .operand lo name.toList mid)
    (hparams : Stand .operand mid params next)
    (hbody : Stand .statement next [body] stop) :
    Laid kind lo (functionSlots name params body async generator) stop := by
  rcases hkind with rfl | rfl
  all_goals
    exact .option rfl hname (.list rfl hparams (.node rfl hbody
      (.flag rfl (.flag rfl .nil))))

theorem read_property
    {key value : Node} {accessor : String} {computed shorthand method : Bool}
    (hkey : key.ReadAs .operand) (hvalue : value.ReadAs .operand)
    (span : Span) :
    (Node.mk .property span (propertySlots key value accessor computed shorthand method)).ReadAs
      .operand := by
  refine (Node.read_mk rfl ?_).readAs rfl
  simp only [propertySlots, List.forall_mem_cons]
  exact ⟨⟨_, rfl, hkey⟩, ⟨_, rfl, hvalue⟩, ⟨rfl, trivial⟩, ⟨rfl, trivial⟩, ⟨rfl, trivial⟩,
    ⟨rfl, trivial⟩, nofun⟩

namespace Productions.Places

variable {g : Productions} (hg : g.Places) {lo : Nat}
include hg

/-! ## Parts that leave no node -/

theorem expressionAhead (lineEnds : Bool) :
    From lo (g.expression lineEnds) fun _ hi => lo ≤ hi :=
  (hg.expression lineEnds).imp fun _ _ ho => ho.le

theorem expressionsAhead (lineEnds : Bool) :
    From lo (g.expressions lineEnds) fun _ hi => lo ≤ hi :=
  (hg.expressions lineEnds).imp fun _ _ hn => hn.le

theorem templateTail (fuel : Nat) : From lo (templateTail g fuel) fun _ hi => lo ≤ hi := by
  induction fuel with
  | zero => exact .of_unexpected
  | succ fuel ih =>
      refine .look fun cur hcur => ?_
      have hnext := Cursor.le_offset_advance hcur (templateRun cur.rest)
      dsimp only
      split
      · exact .of_set (Cursor.le_offset_advance hnext 1)
      · split
        · exact .move (Cursor.le_offset_advance hnext _) ih
        · exact .of_unexpected
      · refine .move (Cursor.le_offset_advance hnext 2) (.skip (hg.expressionsAhead false) ?_)
        exact fun _ => .pass (.mark _) fun _ => ih
      · exact .of_unexpected

theorem template : From lo (template g) fun _ hi => lo < hi :=
  .past (.mark _) fun _ => .look fun _ _ => hg.templateTail _

omit hg in
theorem elementName : From lo elementName fun _ hi => lo ≤ hi :=
  .next fun _ _ => .skip (.lexeme _) fun _ => .look fun _ hcur =>
    .of_set (Cursor.le_offset_advance hcur _)

omit hg in
theorem tagName : From lo tagName fun _ hi => lo ≤ hi := by
  refine .skip elementName fun _ => .skip (.hasMark _) fun _ => .ite elementName ?_
  refine .skip (.ahead fun lo => .pass (.mark _) fun _ => elementName) fun _ => ?_
  exact .of_pure fun _ hhi => hhi

theorem embedded : From lo (embedded g) fun _ hi => lo ≤ hi := by
  have hclose : From lo (mark "\x7d") fun _ hi => lo ≤ hi :=
    (From.mark _).imp fun _ _ hlt => Nat.le_of_lt hlt
  refine .pass (.mark _) fun _ => .look fun cur _ => .ite ?_ (.ite ?_ hclose)
  · exact .pass (.mark _) fun _ => .skip (hg.expressionAhead false) fun _ => hclose
  · exact .skip (hg.expressionsAhead false) fun _ => hclose

theorem tagAttribute : From lo (tagAttribute g) fun _ hi => lo ≤ hi := by
  have hdone : From lo (pure ⟨⟩ : Parser PUnit) fun _ hi => lo ≤ hi := .of_pure fun _ hhi => hhi
  refine .next fun cur _ => .ite hg.embedded (.skip elementName fun _ => ?_)
  refine .skip (.hasMark _) fun _ => .ite (.skip elementName fun _ => ?_) ?_
  all_goals
    refine .skip (.hasMark _) fun _ => .ite (.next fun value _ => ?_) hdone
    split
    · exact hg.embedded
    · exact .skip ((hg.element lo).imp fun _ _ hn => hn.le) fun _ => hdone
    · exact .skip (.lexeme _) fun _ => hdone

theorem children (fuel : Nat) : From lo (children g fuel) fun _ hi => lo ≤ hi := by
  induction fuel with
  | zero => exact .of_unexpected
  | succ fuel ih =>
      refine .look fun cur hcur => ?_
      split
      · refine .move (Cursor.le_offset_advance hcur 2) (.look fun _ _ => ?_)
        refine .ite (.skip tagName fun _ => ?_) ?_
        all_goals
          refine .next fun stop hstop => ?_
          split
          · exact .of_set (Cursor.le_offset_advance hstop 1)
          · exact .of_unexpected
      · exact .skip ((hg.element lo).imp fun _ _ hn => hn.le) fun _ => ih
      · exact .skip hg.embedded fun _ => ih
      · exact .skip (.lexeme _) fun _ => ih
      · split
        · exact .of_unexpected
        · exact .move (Cursor.le_offset_advance hcur _) ih

/-! ## Lists and objects -/

theorem spread : From lo (spread g) fun n => Stand .operand lo [n] := by
  refine .start fun origin horigin => .past (.mark _) fun _ => ?_
  refine .bind (hg.expression false) fun inner mid hinner => ?_
  exact .node horigin ⟨nofun, rfl, rfl⟩ (.node rfl hinner.node .nil)

theorem items (closing : String) (filled : Bool) (fuel : Nat) :
    From lo (items g closing filled fuel) fun list =>
      Stand .operand lo (list.map Item.element) := by
  induction fuel generalizing lo filled with
  | zero => exact .of_unexpected
  | succ fuel ih =>
      unfold Grammar.items
      refine .start fun cur hcur => .ite ?_ (.ite ?_ (.ite .of_unexpected ?_))
      · exact .past (.mark _) fun _ => .of_pure fun hi hhi => .of_nil (by omega)
      · refine .past (.mark _) fun _ => .get fun stop hstop => ?_
        refine .bind (ih false) fun rest mid hrest => .of_pure fun hi hhi => ?_
        have hcomma : Stand .operand lo [.mk .elision (cur.spanTo stop) []] stop.offset :=
          Laid.stand (.done (Nat.le_of_succ_le hstop)) ⟨nofun, rfl, rfl⟩ hcur hstop (Nat.le_refl _)
        split
        · exact hrest.weaken hcomma.le hhi
        · exact (hcomma.append hrest).mono_right hhi
      · refine .iteBind hg.spread (.map ((hg.expression false).imp fun _ _ ho => ho.node)) ?_
        intro value mid hvalue
        refine .bind (ih true) fun rest stop hrest => .of_pure fun hi hhi => ?_
        exact (hvalue.append hrest).weaken hcur hhi

omit hg in
theorem values_sublist_elements (list : List Item) :
    (list.filterMap Item.value?).Sublist (list.map Item.element) := by
  induction list with
  | nil => exact .slnil
  | cons item rest ih =>
      cases item with
      | value n => exact ih.cons_cons n
      | hole comma => exact ih.cons _

theorem arguments : From lo (arguments g) (Stand .operand lo) := by
  refine .past (.mark _) fun _ => .get fun cur hcur => ?_
  refine .bind (hg.items ")" false _) fun list mid hlist => .of_pure fun hi hhi => ?_
  exact (hlist.sublist (values_sublist_elements list)).weaken (by omega) hhi

theorem array : From lo (array g) fun n => Stand .operand lo [n] := by
  refine .start fun origin horigin => .past (.mark _) fun _ => .get fun cur hcur => ?_
  refine .bind (hg.items "]" false _) fun list mid hlist => ?_
  exact .node horigin ⟨nofun, rfl, rfl⟩
    (.list rfl (hlist.mono_left hcur) .nil)

/-- A computed key stands behind its bracket; any other key has no children. -/
def StandsAsKey (lo : Nat) (key : Node) (computed : Bool) (hi : Nat) : Prop :=
  Stand .operand lo [key] hi ∧ if computed then lo < key.span.start else key.children = []

theorem propertyKey : From lo (propertyKey g) fun key => StandsAsKey lo key.1 key.2 := by
  refine .start fun cur hcur => ?_
  have hleaf : ∀ {p : Parser Node}, (∀ lo, From lo p (Leaf lo)) →
      From cur.offset (do return (← p, false)) fun key => StandsAsKey lo key.1 key.2 :=
    fun hp => .bind (hp cur.offset) fun key mid hkey => .of_pure fun hi hhi =>
      ⟨hkey.stand.weaken hcur hhi, hkey.leaf⟩
  split
  · refine .past (.mark _) fun _ => .bind (hg.expression false) fun inner mid hinner => ?_
    refine .past (.mark _) fun _ => .of_pure fun hi hhi => ?_
    have hstart := hinner.node.row.1
    exact ⟨hinner.node.weaken (by omega) (by omega), by simp only [if_true]; omega⟩
  · exact hleaf fun _ => .privateName
  · refine .ite (hleaf fun _ => .stringLiteral) (.ite (hleaf fun _ => .numberLiteral) ?_)
    exact hleaf fun _ => .anyName
  · exact .of_unexpected

theorem parameter : From lo (parameter g) fun n => Stand .operand lo [n] := by
  refine .start fun origin horigin => .bind (hg.pattern _) fun left mid hleft => ?_
  refine .skip (.hasMark _) fun _ => .ite ?_ ?_
  · refine .bind (hg.expression false) fun right stop hright => ?_
    have hboth := hleft.append hright.node
    exact .nodeOf horigin ⟨nofun, rfl, rfl⟩ hboth.lt
      (.node rfl hleft (.node rfl hright.node .nil))
  · exact .of_pure fun hi hhi => hleft.weaken horigin hhi

theorem parameters : From lo (parameters g) (Stand .operand lo) := by
  refine .past (.mark _) fun _ => .bind (P := Stand .operand (lo + 1)) (.nodes ?_)
    fun list mid hlist => ?_
  · refine fun lo => .bind hg.parameter fun p mid hp => .look fun cur hcur => ?_
    have hdone : From mid (pure p : Parser Node) fun n => Stand .operand lo [n] :=
      .of_pure fun hi hhi => hp.mono_right hhi
    exact .ite (.pass (.mark _) fun _ => hdone) hdone
  · exact .past (.mark _) fun _ => .of_pure fun hi hhi =>
      hlist.weaken (Nat.le_succ lo) (by omega)

omit hg in
theorem modifier (word : String) (goesOn : Cursor → Bool) :
    From lo (modifier word goesOn) fun _ hi => lo ≤ hi := by
  refine .look fun cur hcur => ?_
  split
  next found next hword =>
    have hnext := Cursor.offset_lt_of_word? hword
    exact .ite (.move (by omega) (.of_pure fun _ hhi => hhi)) (.of_pure fun _ hhi => hhi)
  next => exact .of_pure fun _ hhi => hhi

omit hg in
theorem methodHead : From lo methodHead fun _ hi => lo ≤ hi := by
  have hdone : ∀ head : MethodHead, From lo (pure head : Parser MethodHead) fun _ hi => lo ≤ hi :=
    fun _ => .of_pure fun _ hhi => hhi
  refine .skip (modifier _ _) fun isStatic => .skip (modifier _ _) fun async => ?_
  refine .skip (.hasMark _) fun _ => .ite (hdone _) (.skip (modifier _ _) fun _ => ?_)
  exact .ite (hdone _) (.skip (modifier _ _) fun _ => .ite (hdone _) (hdone _))

theorem methodMember
    {origin : Cursor} {head : MethodHead} {key : Node} {computed : Bool}
    (hkey : StandsAsKey origin.offset key computed lo) :
    From lo (methodMember g origin head key computed) fun n =>
      Stand .operand origin.offset [n] := by
  obtain ⟨hstand, hcomputed⟩ := hkey
  refine .bind hg.parameters fun params mid hparams => .bind hg.block fun body stop hbody => ?_
  intro cur hcur n next hrun
  cases hrun
  have hslots : Laid .functionExpression lo
      (functionSlots .none params body head.async head.generator) cur.offset :=
    laid_functionSlots (.inl rfl) (.of_nil (Nat.le_refl lo)) hparams (hbody.mono_right hcur)
  have hvalue : Stand .operand origin.offset [.mk .functionExpression (origin.spanTo cur)
      (functionSlots .none params body head.async head.generator)] cur.offset :=
    Laid.stand (hslots.mono_left hstand.le) ⟨nofun, rfl, rfl⟩ (Nat.le_refl _)
      (Nat.lt_of_lt_of_le hstand.lt hslots.le) (Nat.le_refl _)
  refine .of_single ⟨Nat.le_refl _, hvalue.lt, Nat.le_refl _⟩ (.of_slots ?_ ?_)
    (read_property (hstand.read _ (by simp)) (hvalue.read _ (by simp)) _)
  · cases computed with
    | true => exact .method rfl hcomputed (hstand.row.append hslots.row)
    | false => exact .named hcomputed (hstand.mono_right hslots.le).row hvalue.row
  · intro c hc
    rcases List.mem_cons.mp hc with rfl | hc
    · exact hstand.placed _ (by simp)
    · exact hvalue.placed c hc

theorem objectMember : From lo (objectMember g) fun n => Stand .operand lo [n] := by
  refine .start fun origin horigin => .ite (hg.spread.imp fun _ _ hn => ?_) ?_
  · exact hn.mono_left horigin
  refine .skip methodHead fun head => .bind hg.propertyKey ?_
  rintro ⟨key, computed⟩ mid hkey
  refine .look fun after hafter => .ite ?_ (.ite .of_unexpected ?_)
  · exact (hg.methodMember hkey).imp fun _ _ hn => hn.mono_left horigin
  obtain ⟨hstand, hcomputed⟩ := hkey
  refine .skip (.hasMark _) fun colon => .ite ?_ ?_
  · refine .bind (hg.expression false) fun value stop hvalue => ?_
    have hboth := hstand.append hvalue.node
    refine .placedNode horigin hboth.lt (fun span hstart hstop => ?_) hboth.placed
      (read_property (hboth.read _ (by simp)) (hboth.read _ (by simp)))
    rw [← hstart] at hboth hstand
    cases computed with
    | true => exact .computed (hboth.row.mono_right hstop)
    | false =>
        have hrow := hboth.row.mono_right hstop
        refine .named hcomputed (hrow.sublist ?_) (hrow.sublist ?_)
        · exact .cons_cons _ (List.nil_sublist _)
        · exact List.sublist_cons_self _ _
  · split
    · split
      · exact .of_unexpected
      next hname =>
        have hplain : computed = false := by
          cases computed <;> simp_all
        subst hplain
        have hread := hstand.read key (by simp)
        refine .placedNode horigin hstand.lt (fun span hstart hstop => ?_) ?_
          (read_property hread hread)
        · rw [← hstart] at hstand
          have hrow := hstand.row.mono_right hstop
          exact .named hcomputed hrow hrow
        · intro n hn
          have hkey : n ∈ [key, key] := hn
          exact hstand.placed n (by simpa using hkey)
    · exact .of_unexpected

theorem object : From lo (object g) fun n => Stand .operand lo [n] := by
  refine .start fun origin horigin => .past (.mark _) fun _ => ?_
  refine .bind (.whileMore (I := fun lo members =>
    Stand .operand lo (members.filterMap id)) ?_ ?_) ?_
  · exact fun lo hi hle => .of_nil hle
  · refine fun lo => .skip (.hasMark _) fun _ => .ite ?_ ?_
    · exact .of_pure fun mid hmid members hi hmembers => hmembers.mono_left hmid
    · refine .bind hg.objectMember fun member mid hmember => .look fun cur hcur => ?_
      have hdone : From mid (pure (some member) : Parser (Option Node)) fun member mid =>
          ∀ members hi, Stand .operand mid (members.filterMap id) hi →
            Stand .operand lo ((member :: members).filterMap id) hi :=
        .of_pure fun next hnext members hi hmembers =>
          (hmember.mono_right hnext).append hmembers
      exact .ite (.pass (.mark _) fun _ => hdone) hdone
  · refine fun members mid hmembers => .past (.mark _) fun _ => ?_
    exact .node horigin ⟨nofun, rfl, rfl⟩ (.list rfl hmembers (.done (Nat.le_succ mid)))

/-! ## Classes -/

theorem decorators : From lo (decorators g) fun _ hi => lo ≤ hi := by
  refine .skip (.ahead fun lo => .pass (.mark _) fun _ => .look fun cur hcur => .ite ?_ ?_)
    fun _ => .of_pure fun _ hhi => hhi
  · refine .skip (hg.parenthesized.imp fun _ _ hn => hn.le) fun _ => ?_
    exact .of_pure fun _ hhi => hhi
  · refine .skip (From.variableName.imp fun _ _ hn => hn.stand.le) fun _ => ?_
    refine .skip (.ahead fun lo => .pass (.mark _) fun _ => ?_) fun _ => ?_
    · exact From.anyName.imp fun _ _ hn => hn.stand.le
    refine .look fun cur hcur => .ite ?_ (.of_pure fun _ hhi => hhi)
    exact .skip (hg.arguments.imp fun _ _ hn => hn.le) fun _ => .of_pure fun _ hhi => hhi

theorem classMember : From lo (classMember g) fun _ hi => lo ≤ hi := by
  have hdone : From lo (pure ⟨⟩ : Parser PUnit) fun _ hi => lo ≤ hi := .of_pure fun _ hhi => hhi
  have hblock : From lo g.block fun _ hi => lo ≤ hi := hg.block.imp fun _ _ hn => hn.le
  have hrest : From lo (do
      let head ← Grammar.methodHead
      let _ ← Grammar.propertyKey g
      if (← get).nextMark == "(" then
        let _ ← Grammar.parameters g
        let _ ← g.block
      else if head.async || head.generator || head.accessor != "init" then unexpected
      else if ← hasMark "=" then
        let _ ← g.expression true
        semicolon true
      else semicolon false) fun _ hi => lo ≤ hi := by
    refine .skip methodHead fun head => .skip (hg.propertyKey.imp fun _ _ hkey => hkey.1.le) ?_
    refine fun _ => .look fun cur hcur => .ite ?_ (.ite .of_unexpected ?_)
    · refine .skip (hg.parameters.imp fun _ _ hn => hn.le) fun _ => ?_
      exact .skip hblock fun _ => hdone
    · refine .skip (.hasMark _) fun _ => .ite ?_ (.semicolon false)
      exact .skip (hg.expressionAhead true) fun _ => .semicolon true
  refine .skip (.hasMark _) fun _ => .ite hdone (.skip hg.decorators fun _ => ?_)
  refine .look fun cur hcur => ?_
  dsimp only
  split
  next next hword =>
    have hnext := Cursor.offset_lt_of_word? hword
    exact .ite (.move (by omega) (.skip hblock fun _ => hdone)) hrest
  next => exact hrest

theorem classBody : From lo (classBody g) fun _ hi => lo ≤ hi := by
  refine .pass (.mark _) fun _ => .skip (.ahead fun lo => .look fun cur hcur => ?_) fun _ => ?_
  · exact .ite (.skip (.of_throw _) fun _ => hg.classMember) hg.classMember
  · exact (From.mark _).imp fun _ _ hlt => Nat.le_of_lt hlt

theorem classTail : From lo (classTail g) fun _ hi => lo < hi := by
  refine .past (.keyword _) fun _ => .look fun cur hcur => ?_
  have hrest : From (lo + 1) (do
      if ← hasKeyword "extends" then
        let _ ← g.expression false
      Grammar.classBody g) fun _ hi => lo + 1 ≤ hi :=
    .skip (.hasKeyword _) fun _ =>
      .ite (.skip (hg.expressionAhead false) fun _ => hg.classBody) hg.classBody
  dsimp only
  split
  next word next hword =>
    have hnext := Cursor.offset_lt_of_word? hword
    exact .ite (.move (by omega) hrest) hrest
  next => exact hrest

/-! ## Functions and groups -/

theorem expressionBlock : From lo (expressionBlock g) fun n => Stand .statement lo [n] := by
  refine .bind hg.block fun body mid hbody => .get fun cur hcur => ?_
  split
  next stop hend =>
    have hstop := Cursor.offset_le_of_automaticEnd? hend
    exact .set (.of_pure fun hi hhi => hbody.extend (by omega) hhi)
  next => exact .of_pure fun hi hhi => hbody.mono_right (by omega)

theorem functionExpression : From lo (functionExpression g) fun n => Stand .operand lo [n] := by
  refine .start fun origin horigin => .skip (.hasKeyword _) fun async => ?_
  refine .past (.keyword _) fun _ => .skip (.hasMark _) fun generator => .look fun cur hcur => ?_
  refine .iteBind (P := fun name => Stand .operand (origin.offset + 1) name.toList) ?_ ?_ ?_
  · exact .of_pure fun hi hhi => .of_nil hhi
  · exact .map (From.variableName.imp fun _ _ hn => hn.stand)
  · intro name mid hname
    refine .bind hg.parameters fun params next hparams => ?_
    refine .bind hg.expressionBlock fun body stop hbody => ?_
    exact .node horigin ⟨nofun, rfl, rfl⟩ (laid_functionSlots (.inl rfl) hname hparams hbody)

theorem arrowBody (lineEnds : Bool) :
    From lo (arrowBody g lineEnds) fun n => Stand .anything lo [n] := by
  have hexpression : From lo (Operand.node <$> g.expression lineEnds) fun n =>
      Stand .anything lo [n] :=
    .map ((hg.expression lineEnds).imp fun _ _ ho => ho.node.anything)
  have hblock : From lo (Grammar.expressionBlock g) fun n => Stand .anything lo [n] :=
    hg.expressionBlock.imp fun _ _ hn => hn.anything
  refine .look fun cur hcur => ?_
  split
  · exact .ite (.either hexpression hblock) hblock
  · exact hexpression

/-- A function with an arrow starts at its parameters or at a word in front of them. -/
theorem arrow
    (lineEnds : Bool)
    {origin : Cursor} {least : Nat}
    (async : Bool)
    (hleast : least ≤ origin.offset) (horigin : origin.offset ≤ lo) :
    From lo (arrow g lineEnds origin async) (Operand.Stands least) := by
  have hrest : ∀ (params : List Node) (mid : Nat), Stand .operand lo params mid → From mid (do
      mark "=>"
      let body ← Grammar.arrowBody g lineEnds
      let function ← node origin .arrowFunctionExpression
        [(.params, .list params), (.body, .node body), (.async, .flag async)]
      return (⟨function, origin, .other⟩ : Operand)) (Operand.Stands least) := by
    intro params mid hparams
    refine .past (.mark _) fun _ => .bind (hg.arrowBody lineEnds) fun body stop hbody => ?_
    have hbehind := hbody.mono_left (Nat.le_succ mid)
    have hlaid : Laid .arrowFunctionExpression origin.offset [(.params, .list params),
        (.body, .node body), (.async, .flag async)] stop :=
      .list rfl (hparams.mono_left horigin) (.node rfl hbehind (.flag rfl .nil))
    have hlt : origin.offset < stop := by
      have hmid := hparams.le
      have hstop := hbody.le
      omega
    exact .operand hleast (.nodeOf (Nat.le_refl _) ⟨nofun, rfl, rfl⟩ hlt hlaid)
  refine .look fun cur hcur => .ite (.bind hg.parameters hrest) ?_
  exact .bind From.variableName fun name mid hname => hrest [name] mid hname.stand

theorem group (lineEnds : Bool) : From lo (group g lineEnds) (Operand.Stands lo) := by
  refine .start fun origin horigin => .eitherReading ?_ ?_
  swap
  · exact hg.arrow lineEnds false horigin (Nat.le_refl _)
  refine .bind hg.parenthesized fun inner mid hinner => .look fun cur hcur => ?_
  have hdone : From mid (pure ⟨inner, origin, .group⟩ : Parser Operand) (Operand.Stands lo) :=
    .of_pure fun hi hhi => ⟨horigin, hinner.mono_right hhi⟩
  exact .ite (.skip .of_unexpected fun _ => hdone) hdone

theorem bracketed
    {literal : Parser Node}
    (hliteral : ∀ lo, From lo literal fun n => Stand .operand lo [n]) :
    From lo (bracketed g literal) (Operand.Stands lo) := by
  refine .start fun origin horigin => .bind (P := Operand.Stands lo) (.eitherReading ?_ ?_) ?_
  · exact .operand horigin (hliteral _)
  · exact .operand horigin (hg.pattern _)
  · refine fun pattern mid hpattern => .look fun cur hcur => .ite ?_ .of_unexpected
    exact .of_pure fun hi hhi => hpattern.mono_right hhi

theorem asyncOperand (lineEnds : Bool) : From lo (asyncOperand g lineEnds) (Operand.Stands lo) := by
  refine .start fun origin horigin => ?_
  have hname : From origin.offset (do
      let name ← anyName
      return (⟨name, origin, .name⟩ : Operand)) (Operand.Stands lo) :=
    .operand horigin (From.anyName.imp fun _ _ hn => hn.stand)
  have hafter : origin.offset ≤ ((origin.word?.map Prod.snd).getD origin).offset := by
    cases hword : origin.word? with
    | none => exact Nat.le_refl _
    | some result => exact Nat.le_of_lt (Cursor.offset_lt_of_word? hword)
  refine .ite hname (.ite (.operand horigin hg.functionExpression) (.ite ?_ (.ite ?_ hname)))
  · exact hg.arrow lineEnds false horigin (Nat.le_refl _)
  · exact .eitherReading (.set (hg.arrow lineEnds true horigin hafter)) hname

/-! ## Operands -/

theorem wordOperand (lineEnds : Bool) (word : String) :
    From lo (wordOperand g lineEnds word) (Operand.Stands lo) := by
  refine .start fun origin horigin => ?_
  have hraw : From (origin.offset + 1) (do return (⟨← rawNode origin, origin, .other⟩ : Operand))
      (Operand.Stands lo) :=
    .operand horigin (.rawNode (Nat.le_refl _) (Nat.lt_succ_self _))
  have hword : From origin.offset anyName fun _ hi => origin.offset < hi :=
    From.anyName.imp fun _ _ hn => hn.stand.lt
  have hconstant : ∀ value : Scalar, value.Exact Numeral.value? → From origin.offset (do
      let _ ← anyName
      return (⟨← literal origin value, origin, .other⟩ : Operand)) (Operand.Stands lo) :=
    fun value hvalue => .past hword fun _ =>
      .operand horigin ((From.literal hvalue (Nat.le_refl _)).imp fun _ _ hn => hn.stand)
  dsimp only
  split
  · exact .operand horigin hg.functionExpression
  · exact .past hg.classTail fun _ => hraw
  · exact (hg.construct _).imp fun _ _ ho => ho.mono_left horigin
  · exact .past hword fun _ => .operand horigin (.node (Nat.le_refl _) ⟨nofun, rfl, rfl⟩ .nil)
  · exact hconstant _ trivial
  · exact hconstant _ trivial
  · exact hconstant _ trivial
  · exact .past hword fun _ => hraw
  · refine .past (.keyword _) fun _ => .look fun cur hcur => .ite ?_ hraw
    exact .pass (.mark _) fun _ => .pass (.keyword _) fun _ => hraw
  · exact (hg.asyncOperand lineEnds).imp fun _ _ ho => ho.mono_left horigin
  · refine .iteBind From.anyName From.variableName fun name mid hname => .look fun cur hcur => ?_
    refine .ite (.set (hg.arrow lineEnds false horigin (Nat.le_refl _))) ?_
    exact .of_pure fun hi hhi => ⟨horigin, hname.stand.mono_right hhi⟩

theorem primary (lineEnds : Bool) : From lo (primary g lineEnds) (Operand.Stands lo) := by
  refine .operandStart fun origin horigin => ?_
  have hlower : ∀ {p : Parser Operand}, From origin.offset p (Operand.Stands origin.offset) →
      From origin.offset p (Operand.Stands lo) :=
    fun hp => hp.imp fun _ _ ho => ho.mono_left horigin
  have hleaf : ∀ {p : Parser Node}, From origin.offset p (Leaf origin.offset) →
      From origin.offset (do return (⟨← p, origin, .other⟩ : Operand)) (Operand.Stands lo) :=
    fun hp => .operand horigin (hp.imp fun _ _ hn => hn.stand)
  have hraw : From (origin.offset + 1) (rawNode origin) fun n => Stand .operand origin.offset [n] :=
    .rawNode (Nat.le_refl _) (Nat.lt_succ_self _)
  dsimp only
  split
  · exact hlower (hg.wordOperand lineEnds _)
  split
  · exact hlower (hg.group lineEnds)
  · exact hlower (hg.bracketed fun _ => hg.array)
  · exact hlower (hg.bracketed fun _ => hg.object)
  · exact .operand horigin (.past hg.template fun _ => hraw)
  · exact hleaf .regexLiteral
  · exact .operand horigin (hg.element _)
  · exact .operand horigin (.skip hg.decorators fun _ => .past hg.classTail fun _ => hraw)
  · refine .bind .privateName fun name mid hname => .look fun cur hcur => .ite ?_ .of_unexpected
    exact .of_pure fun hi hhi => ⟨horigin, hname.stand.mono_right hhi⟩
  · exact .ite (hleaf .stringLiteral) (hleaf .numberLiteral)
  · exact .of_unexpected

/-! ## Suffixes -/

omit hg in
theorem propertyName : From lo propertyName fun n => Stand .operand lo [n] := by
  refine .next fun cur hcur => .ite ?_ ?_
  · exact From.privateName.imp fun _ _ hn => hn.stand
  · exact From.anyName.imp fun _ _ hn => hn.stand

omit hg in
theorem memberOf
    {least mid : Nat} {object : Operand} {property : Node} {computed optional : Bool}
    (hobject : object.Stands least mid) (hproperty : Stand .operand mid [property] lo) :
    From lo (memberOf object property computed optional) (Operand.Stands least) :=
  .operand hobject.origin (.nodeOf (Nat.le_refl _) ⟨nofun, rfl, rfl⟩
    (hobject.stand.append hproperty).lt
    (.node rfl hobject.stand (.node rfl hproperty (.flag rfl (.flag rfl .nil)))))

omit hg in
theorem callOf
    {least mid : Nat} {callee : Operand} {args : List Node} {optional : Bool}
    (hcallee : callee.Stands least mid) (hargs : Stand .operand mid args lo) :
    From lo (callOf callee args optional) (Operand.Stands least) :=
  .operand hcallee.origin (.nodeOf (Nat.le_refl _) ⟨nofun, rfl, rfl⟩ (hcallee.stand.append hargs).lt
    (.node rfl hcallee.stand (.list rfl hargs (.flag rfl .nil))))

theorem subscriptOf
    {least : Nat} {object : Operand} {optional : Bool}
    (hobject : object.Stands least lo) :
    From lo (subscriptOf g object optional) (Operand.Stands least) := by
  refine .past (.mark _) fun _ => .bind (hg.expressions false) fun index mid hindex => ?_
  have hindex' := hindex.weaken (Nat.le_succ lo) (Nat.le_succ mid)
  exact .past (.mark _) fun _ => memberOf hobject hindex'

/-- What was read so far, with one more suffix if one follows. -/
theorem suffix?
    (calls lineEnds : Bool)
    {least : Nat} {operand : Operand}
    (hoperand : operand.Stands least lo) :
    From lo (suffix? g calls lineEnds operand) fun longer =>
      (longer.getD operand).Stands least := by
  have hnone : From lo (pure .none : Parser (Option Operand)) fun longer =>
      (longer.getD operand).Stands least :=
    .of_pure fun hi hhi => hoperand.mono_right hhi
  have hmember : ∀ optional, From lo (do
      let property ← Grammar.propertyName
      some <$> Grammar.memberOf operand property false optional) fun longer =>
        (longer.getD operand).Stands least :=
    fun optional => .bind propertyName fun _ _ hproperty => .map (memberOf hoperand hproperty)
  have hcall : ∀ optional, From lo (do
      let args ← Grammar.arguments g
      some <$> Grammar.callOf operand args optional) fun longer =>
        (longer.getD operand).Stands least :=
    fun optional => .bind hg.arguments fun _ _ hargs => .map (callOf hoperand hargs)
  have hsome : ∀ {lo : Nat} {p : Parser Node}, From lo p (fun n =>
      Stand .operand operand.origin.offset [n]) → From lo (do
        return some (⟨← p, operand.origin, .other⟩ : Operand)) fun longer =>
          (longer.getD operand).Stands least :=
    fun hp => .bind hp fun _ _ hn => .of_pure fun _ hhi => ⟨hoperand.origin, hn.mono_right hhi⟩
  have hbehind : operand.Stands least (lo + 1) := hoperand.mono_right (Nat.le_succ lo)
  refine .look fun cur hcur => .ite (.ite hnone ?_) (.ite ?_ ?_)
  · exact .pass (.mark _) fun _ => hmember false
  · refine .pass (.mark _) fun _ => .look fun _ _ => .ite (.map (hg.subscriptOf hoperand)) ?_
    exact .ite (hcall true) (hmember true)
  refine .ite (.map (hg.subscriptOf hoperand)) (.ite ?_ (.ite hnone (.ite (hcall false) ?_)))
  · exact .past hg.template fun _ => hsome (.rawNode (Nat.le_refl _) hbehind.stand.lt)
  · refine .ite (.past (.mark _) fun _ => hsome ?_) hnone
    exact .nodeOf (Nat.le_refl _) ⟨nofun, rfl, rfl⟩ hbehind.stand.lt
      (.text rfl (.node rfl hbehind.stand (.flag rfl .nil)))

theorem suffixes
    (calls lineEnds : Bool) (fuel : Nat)
    {least : Nat} {operand : Operand}
    (hoperand : operand.Stands least lo) :
    From lo (suffixes g calls lineEnds fuel operand) (Operand.Stands least) := by
  induction fuel generalizing lo operand with
  | zero => exact .of_pure fun hi hhi => hoperand.mono_right hhi
  | succ fuel ih =>
      refine .bind (hg.suffix? calls lineEnds hoperand) fun longer mid hlonger => ?_
      cases longer with
      | none => exact .of_pure fun hi hhi => hlonger.mono_right hhi
      | some o => exact ih hlonger

theorem suffixed
    (calls lineEnds : Bool)
    {least : Nat} {operand : Operand}
    (hoperand : operand.Stands least lo) :
    From lo (suffixed g calls lineEnds operand) (Operand.Stands least) :=
  .look fun _ _ => hg.suffixes calls lineEnds _ hoperand

/-! ## Operators -/

theorem constructed : From lo (Grammar.construct g) (Operand.Stands lo) := by
  refine .start fun origin horigin => .past (.keyword _) fun _ => .look fun _ _ => .ite ?_ ?_
  · refine .pass (.mark _) fun _ => .pass (.keyword _) fun _ => ?_
    exact .operand horigin (.rawNode (Nat.le_refl _) (Nat.lt_succ_self _))
  refine .look fun _ _ => .iteBind (hg.construct _) (hg.primary false) fun first mid hfirst => ?_
  refine .bind (hg.suffixed false false hfirst) fun callee stop hcallee => .look fun _ _ => ?_
  refine .iteBind hg.arguments (.of_pure fun _ hhi => .of_nil hhi) fun args next hargs => ?_
  exact .operand horigin (.node (Nat.le_refl _) ⟨nofun, rfl, rfl⟩
    (.node rfl hcallee.node (.list rfl hargs .nil)))

/-- The left side of an assignment ends where the operand ends that it is made of. -/
theorem assignmentLeft?
    (operator : String)
    {left : Operand} {cur : Cursor}
    (hleft : Stand .operand left.origin.offset [left.node] cur.offset) :
    At cur (assignmentLeft? g operator left) fun found hi =>
      cur.offset ≤ hi ∧ Stand .operand left.origin.offset found.toList cur.offset := by
  have hsame : From cur.offset (pure (some left.node) : Parser (Option Node)) fun found hi =>
      cur.offset ≤ hi ∧ Stand .operand left.origin.offset found.toList cur.offset :=
    .of_pure fun hi hhi => ⟨hhi, hleft⟩
  have hnone : From cur.offset (pure .none : Parser (Option Node)) fun found hi =>
      cur.offset ≤ hi ∧ Stand .operand left.origin.offset found.toList cur.offset :=
    .of_pure fun hi hhi => ⟨hhi, .of_nil hleft.le⟩
  have hagain : From cur.offset (attempt do
      set left.origin
      let pattern ← g.pattern
      if (← get).offset == cur.offset then return pattern
      unexpected) fun found hi =>
        cur.offset ≤ hi ∧ Stand .operand left.origin.offset found.toList cur.offset := by
    refine .attempt (.set (.bind (hg.pattern _) fun pattern mid hpattern => .get ?_)) ?_
    · intro stop hstop
      split
      next hend =>
        have hend : stop.offset = cur.offset := beq_iff_eq.mp hend
        refine .of_pure fun hi hhi => ⟨by omega, ?_⟩
        exact hpattern.mono_right (by omega)
      next => exact .of_unexpected
    · exact fun hi hhi => ⟨hhi, .of_nil hleft.le⟩
  unfold Grammar.assignmentLeft?
  split
  · exact hsame cur (Nat.le_refl _)
  · exact hsame cur (Nat.le_refl _)
  · exact hsame cur (Nat.le_refl _)
  · split
    · exact hagain cur (Nat.le_refl _)
    · exact hnone cur (Nat.le_refl _)
  · exact hnone cur (Nat.le_refl _)

theorem assigned
    (lineEnds : Bool)
    {least : Nat} {left : Operand}
    (hleft : left.Stands least lo) :
    From lo (assigned g lineEnds left) (Operand.Stands least) := by
  have hdone : From lo (pure left : Parser Operand) (Operand.Stands least) :=
    .of_pure fun hi hhi => hleft.mono_right hhi
  refine .getAt fun cur hcur => ?_
  split
  next operator next hmark =>
    have hnext := Cursor.offset_lt_of_mark? hmark
    have hleft' := hleft.stand.mono_right hcur
    split
    · refine .bind (hg.assignmentLeft? operator hleft') fun found mid hfound => ?_
      obtain ⟨hmid, htarget⟩ := hfound
      cases found with
      | none => exact hdone.mono (Nat.le_trans hcur hmid)
      | some target =>
          refine .set (.bind (hg.expression lineEnds) fun right stop hright => ?_)
          have hright' := hright.node.mono_left (Nat.le_of_lt hnext)
          exact .operand hleft.origin (.nodeOf (Nat.le_refl _) ⟨nofun, rfl, rfl⟩
            (htarget.append hright').lt (.text rfl (.node rfl htarget (.node rfl hright' .nil))))
    · exact hdone cur hcur
  next => exact hdone cur hcur

theorem unary
    (lineEnds : Bool)
    {origin : Cursor} {least : Nat}
    (operator : String)
    (hleast : least ≤ origin.offset) (horigin : origin.offset < lo) :
    From lo (unary g lineEnds origin operator) (Operand.Stands least) := by
  refine .bind (hg.operation _ _ lineEnds) fun argument mid hargument => ?_
  have hnode := hargument.node.mono_left horigin
  exact .operand hleast (.node (Nat.le_refl _) ⟨nofun, rfl, rfl⟩ (.text rfl (.node rfl hnode .nil)))

theorem prefixUpdate
    (lineEnds : Bool)
    {origin : Cursor} {least : Nat}
    (operator : String)
    (hleast : least ≤ origin.offset) (horigin : origin.offset < lo) :
    From lo (prefixUpdate g lineEnds origin operator) (Operand.Stands least) := by
  refine .bind (hg.operation _ _ lineEnds) fun argument mid hargument => ?_
  have hnode := hargument.node.mono_left horigin
  exact .operand hleast (.node (Nat.le_refl _) ⟨nofun, rfl, rfl⟩
    (.text rfl (.node rfl hnode (.flag rfl .nil))))

theorem awaited
    (lineEnds : Bool)
    {origin : Cursor} {least : Nat}
    (hleast : least ≤ origin.offset) :
    From origin.offset (awaited g lineEnds origin) (Operand.Stands least) := by
  have hargument : From (origin.offset + 1) (do
      let argument ← g.operation unaryStrength lineEnds
      let value ← node origin .awaitExpression [(.argument, .node argument.node)]
      return (⟨value, origin, .other⟩ : Operand)) (Operand.Stands least) := by
    refine .bind (hg.operation _ _ lineEnds) fun argument mid hargument => ?_
    exact .operand hleast (.node (Nat.le_refl _) ⟨nofun, rfl, rfl⟩ (.node rfl hargument.node .nil))
  refine .past (.keyword _) fun _ => .look fun cur hcur => ?_
  exact .ite (.skip .of_unexpected fun _ => hargument) hargument

theorem yielded
    (lineEnds : Bool)
    {origin : Cursor} {least : Nat}
    (hleast : least ≤ origin.offset) :
    From origin.offset (yielded g lineEnds origin) (Operand.Stands least) := by
  have hresult : ∀ {mid : Nat} (argument : Option Node) (delegate : Bool),
      Stand .operand (origin.offset + 1) argument.toList mid → From mid (do
        let value ← node origin .yieldExpression
          [(.argument, .ofOption argument), (.delegate, .flag delegate)]
        return (⟨value, origin, .other⟩ : Operand)) (Operand.Stands least) := by
    intro mid argument delegate hargument
    exact .operand hleast (.node (Nat.le_refl _) ⟨nofun, rfl, rfl⟩
      (.option rfl hargument (.flag rfl .nil)))
  have hnone : Stand .operand (origin.offset + 1) (Option.none : Option Node).toList
      (origin.offset + 1) :=
    .of_nil (Nat.le_refl _)
  refine .past (.keyword _) fun _ => .look fun cur hcur => ?_
  refine .ite (hresult _ false hnone) (.ite ?_ (.ite ?_ (hresult _ false hnone)))
  · refine .pass (.mark _) fun _ => .bind (hg.expression lineEnds) fun argument mid hargument => ?_
    exact hresult (some argument.node) true hargument.node
  · refine .bind (hg.expression lineEnds) fun argument mid hargument => ?_
    exact hresult (some argument.node) false hargument.node

theorem operand (lineEnds : Bool) : From lo (operand g lineEnds) (Operand.Stands lo) := by
  refine .operandStart fun origin horigin => ?_
  have hplain : From origin.offset (do
      let first ← Grammar.primary g lineEnds
      let whole ← Grammar.suffixed g true lineEnds first
      Grammar.assigned g lineEnds whole) (Operand.Stands lo) := by
    refine .bind (hg.primary lineEnds) fun first mid hfirst => ?_
    refine .bind (hg.suffixed true lineEnds hfirst) fun whole stop hwhole => ?_
    exact (hg.assigned lineEnds hwhole).imp fun _ _ ho => ho.mono_left horigin
  dsimp only
  split
  next word next hword =>
    have hnext := Cursor.offset_lt_of_word? hword
    refine .ite (.set (hg.unary lineEnds _ horigin hnext)) (.ite ?_ (.ite ?_ hplain))
    · exact .either (hg.awaited lineEnds horigin) hplain
    · exact hg.yielded lineEnds horigin
  next =>
    split
    next sign next hmark =>
      have hnext := Cursor.offset_lt_of_mark? hmark
      refine .ite (.set (hg.unary lineEnds _ horigin hnext)) (.ite ?_ hplain)
      exact .set (hg.prefixUpdate lineEnds _ horigin hnext)
    next => exact hplain

omit hg in
theorem offset_lt_of_binaryOperator?
    {cur next : Cursor} {operator : String} {strength : Nat}
    (hfound : binaryOperator? cur = some (operator, strength, next)) :
    cur.offset < next.offset := by
  unfold binaryOperator? at hfound
  cases hmark : cur.mark? with
  | some result =>
      rw [hmark] at hfound
      obtain ⟨s, -, hs⟩ := Option.map_eq_some_iff.mp hfound
      cases hs
      exact Cursor.offset_lt_of_mark? hmark
  | none =>
      cases hword : cur.word? with
      | some result =>
          rw [hmark, hword] at hfound
          obtain ⟨s, -, hs⟩ := Option.map_eq_some_iff.mp hfound
          cases hs
          exact Cursor.offset_lt_of_word? hword
      | none =>
          rw [hmark, hword] at hfound
          cases hfound

theorem operators
    (strength : Nat) (lineEnds : Bool) (fuel : Nat)
    {least : Nat} {left : Operand}
    (hleft : left.Stands least lo) :
    From lo (operators g strength lineEnds fuel left) (Operand.Stands least) := by
  induction fuel generalizing lo left with
  | zero => exact .of_pure fun hi hhi => hleft.mono_right hhi
  | succ fuel ih =>
      have hdone : From lo (pure left : Parser Operand) (Operand.Stands least) :=
        .of_pure fun hi hhi => hleft.mono_right hhi
      refine .look fun cur hcur => ?_
      split
      next operator _ next hfound =>
        have hnext := offset_lt_of_binaryOperator? hfound
        refine .ite hdone (.move (by omega) ?_)
        refine .bind (hg.operation _ _ lineEnds) fun right mid hright => ?_
        refine .bind (P := fun value => Stand .operand left.origin.offset [value]) ?_
          fun value stop hvalue => ih ⟨hleft.origin, hvalue⟩
        have hlt := (hleft.stand.append hright.node).lt
        split
        all_goals
          exact .nodeOf (Nat.le_refl _) ⟨nofun, rfl, rfl⟩ hlt
            (.text rfl (.node rfl hleft.stand (.node rfl hright.node .nil)))
      next =>
        refine .ite hdone (.past (.mark _) fun _ => ?_)
        refine .bind (hg.expression false) fun consequent mid hconsequent => ?_
        refine .past (.mark _) fun _ => ?_
        refine .bind (hg.operation _ _ lineEnds) fun alternate stop halternate => ?_
        have hfirst := hconsequent.node.weaken (Nat.le_succ lo) (Nat.le_succ mid)
        refine .bind (P := fun value => Stand .operand left.origin.offset [value]) ?_
          fun value stop hvalue => ih ⟨hleft.origin, hvalue⟩
        exact .nodeOf (Nat.le_refl _) ⟨nofun, rfl, rfl⟩
          ((hleft.stand.append hfirst).append halternate.node).lt
          (.node rfl hleft.stand (.node rfl hfirst (.node rfl halternate.node .nil)))

theorem operated (strength : Nat) (lineEnds : Bool) :
    From lo (Grammar.operation g strength lineEnds) (Operand.Stands lo) :=
  .bind (hg.operand lineEnds) fun _ _ hleft => .look fun _ _ =>
    hg.operators strength lineEnds _ hleft

/-! ## Patterns and elements -/

theorem target : From lo (target g) fun n => Stand .operand lo [n] := by
  refine .bind (hg.primary false) fun first mid hfirst => ?_
  refine .bind (hg.suffixed true false hfirst) fun whole stop hwhole => .ite ?_ .of_unexpected
  exact .of_pure fun hi hhi => hwhole.node.mono_right hhi

theorem patternElement : From lo (patternElement g) fun _ hi => lo ≤ hi := by
  refine .skip ((hg.pattern lo).imp fun _ _ hn => hn.le) fun _ => .skip (.hasMark _) fun _ => ?_
  refine .ite (.skip (hg.expressionAhead false) fun _ => ?_) ?_
  · exact .of_pure fun _ hhi => hhi
  · exact .of_pure fun _ hhi => hhi

omit hg in
/-- Members of a pattern up to a closing bracket, as far as the cursor is concerned. -/
theorem patternMembers
    {member : Parser Unit} {closing : String}
    (hmember : ∀ lo, From lo member fun _ hi => lo ≤ hi) :
    From lo (whileMore (fun cur => cur.nextMark != closing) do
      if !(← hasMark ",") then
        member
        if (← get).nextMark != closing then mark ",") fun _ hi => lo ≤ hi := by
  refine .ahead fun lo => .skip (.hasMark _) fun _ => .ite ?_ (.of_pure fun _ hhi => hhi)
  refine .skip (hmember lo) fun _ => .look fun _ _ => .ite ?_ (.of_pure fun _ hhi => hhi)
  exact (From.mark _).imp fun _ _ hlt => Nat.le_of_lt hlt

theorem arrayPattern : From lo (arrayPattern g) fun n => Stand .operand lo [n] := by
  refine .start fun origin horigin => .past (.mark _) fun _ => ?_
  refine .skip (patternMembers fun _ => hg.patternElement) fun _ => .pass (.mark _) fun _ => ?_
  exact .rawNode horigin (Nat.lt_succ_self _)

theorem objectPatternMember : From lo (objectPatternMember g) fun _ hi => lo ≤ hi := by
  have hdone : From lo (pure ⟨⟩ : Parser PUnit) fun _ hi => lo ≤ hi := .of_pure fun _ hhi => hhi
  refine .next fun origin _ => .ite ?_ ?_
  · exact .skip ((hg.pattern lo).imp fun _ _ hn => hn.le) fun _ => hdone
  refine .skip (hg.propertyKey.imp fun _ _ hkey => hkey.1.le) fun key => ?_
  refine .skip (.hasMark _) fun _ => .ite hg.patternElement ?_
  have hdefault : From lo (do
      if ← hasMark "=" then
        let _ ← g.expression false) fun _ hi => lo ≤ hi :=
    .skip (.hasMark _) fun _ => .ite (.skip (hg.expressionAhead false) fun _ => hdone) hdone
  split
  · exact .ite (.skip .of_unexpected fun _ => hdefault) hdefault
  · exact .of_unexpected

theorem objectPattern : From lo (objectPattern g) fun n => Stand .operand lo [n] := by
  refine .start fun origin horigin => .past (.mark _) fun _ => ?_
  refine .skip (patternMembers fun _ => hg.objectPatternMember) fun _ => .pass (.mark _) fun _ => ?_
  exact .rawNode horigin (Nat.lt_succ_self _)

theorem binding : From lo (binding g) fun n => Stand .operand lo [n] :=
  .look fun _ _ => .ite hg.arrayPattern
    (.ite hg.objectPattern (From.variableName.imp fun _ _ hn => hn.stand))

theorem patterned : From lo (Grammar.pattern g) fun n => Stand .operand lo [n] := by
  have hassignable : ∀ lo, From lo (do
      let next := (← get).nextMark
      if next == "[" then Grammar.arrayPattern g
      else if next == "\x7b" then Grammar.objectPattern g
      else Grammar.target g) fun n => Stand .operand lo [n] :=
    fun lo => .look fun _ _ => .ite hg.arrayPattern (.ite hg.objectPattern hg.target)
  refine .start fun origin horigin => .skip (.hasMark _) fun _ => .ite ?_ ?_
  · refine .bind (hassignable _) fun inner mid hinner => ?_
    exact .nodeOf horigin ⟨nofun, rfl, rfl⟩ hinner.lt (.node rfl hinner .nil)
  · exact (hassignable _).imp fun _ _ hn => hn.mono_left horigin

theorem elementBody : From lo (elementBody g) fun n => Stand .operand lo [n] := by
  refine .start fun origin horigin => ?_
  split
  next tail hrest =>
    have hfirst : origin.offset < (origin.advance 1).offset :=
      Cursor.offset_lt_advance (by simp [hrest]) (by decide)
    have hraw : From (origin.offset + 1) (rawNode origin) fun n => Stand .operand lo [n] :=
      .rawNode horigin (Nat.lt_succ_self _)
    refine .set (From.mono (.next fun inner hinner => ?_) hfirst)
    dsimp only
    split
    · exact .move (Cursor.le_offset_advance hinner 1) (.skip (hg.children _) fun _ => hraw)
    · refine .skip tagName fun _ => .skip (.ahead fun _ => hg.tagAttribute) fun _ => ?_
      refine .next fun stop hstop => ?_
      split
      · exact .move (Cursor.le_offset_advance hstop 2) hraw
      · exact .move (Cursor.le_offset_advance hstop 1) (.skip (hg.children _) fun _ => hraw)
      · exact .skip .of_unexpected fun _ => hraw
  next => exact .of_unexpected

end Productions.Places

end Graft.Grammar
