import Graft.Proofs.Reprint.Chain

/-!
# Reading operations

Operands with signs and assignments, and the loop over binary and conditional operators.  An
operation is followed up to the round of the loop in which its last operator has been taken, so
that the same text can also be the left operand of what follows.
-/

namespace Graft.Grammar

open Text

variable {g : Productions} {calls lineEnds : Bool} {tail : List Char}

/-! ## The operand of `new` -/

theorem primary_of_new
    {cur : Cursor}
    (hfresh : isFresh cur.rest = true) (hword : cur.nextWord = "new") :
    primary g lineEnds cur = g.construct cur := by
  have hfound : ∃ next, cur.word? = some ("new", next) := by
    cases hfound : cur.word? with
    | none => simp [Cursor.nextWord, hfound] at hword
    | some found =>
        simp only [Cursor.nextWord, hfound, Option.map_some, Option.getD_some] at hword
        exact ⟨found.2, by rw [← hword]⟩
  obtain ⟨next, hfound⟩ := hfound
  unfold primary
  rw [bind_of_ok (operandStart_of_isFresh hfresh)]
  simp only [hfound]
  unfold wordOperand
  rw [bind_of_ok (start_of_isFresh hfresh)]
  rfl

/-- Behind `new` another `new` is read at once; it would be read as any other operand. -/
theorem goesOn_construct
    {α β : Type} {f : Operand → Parser α} {next : β → Parser α} {Q : β → Prop}
    {text output : List Char}
    (hskips : Skips g.construct)
    (hfresh : isFresh text = true)
    (hword : wordOf text = "new")
    (hprimary : GoesOn (primary g lineEnds >>= f) text output next Q) :
    GoesOn (g.construct >>= f) (' ' :: text) output next Q := by
  refine .blank (.bind hskips) rfl fun cur hcur => ?_
  have hnext : cur.nextWord = "new" := by rw [Cursor.nextWord_eq, hcur, hword]
  have hsame : primary g lineEnds cur = g.construct cur :=
    primary_of_new (hcur ▸ hfresh) hnext
  obtain ⟨b, stop, hrun, hstop⟩ := hprimary cur hcur
  refine ⟨b, stop, ?_, hstop⟩
  rw [← hrun]
  change Except.bind (g.construct cur) _ = Except.bind (primary g lineEnds cur) _
  rw [hsame]

theorem skips_primary : Skips (primary g lineEnds) := .bind .operandStart

/-- The operand of `new`, with what belongs to it. -/
theorem reads_construct
    {integer : Bool} {text : List Char} {callee : Node} {entries : List (List Char × Node)}
    (hskips : Skips g.construct)
    (hchain : Chains g false integer text callee)
    (hfresh : ∀ rest, endsName rest = true → isFresh (text ++ rest) = true)
    (hdot : ∀ rest, endsName rest = true → markOf (text ++ rest) ≠ ".")
    (hentries : ∀ entry ∈ entries, ReadsItem g entry.1 entry.2) :
    Reads (construct g)
      ("new ".toList ++ (text ++ '(' :: (joined (entries.map Prod.fst) ++ ')' :: tail))) tail
      fun o => ∃ span callee' args, callee'.sameStructure callee = true ∧
        sameSequence args (entries.map Prod.snd) = true ∧
        o.node = .mk .newExpression span [(.callee, .node callee'), (.arguments, .list args)] ∧
          o.form = .other := by
  have hname : isNameText "new".toList = true := by decide
  have hopen : markAt ('(' :: (joined (entries.map Prod.fst) ++ ')' :: tail)) =
      some ("(", joined (entries.map Prod.fst) ++ ')' :: tail) := markAt_open _
  have hkeyword : wordAt ("new".toList ++
      ' ' :: (text ++ '(' :: (joined (entries.map Prod.fst) ++ ')' :: tail))) = some ("new", _) :=
    wordAt_append hname rfl
  have hafter := hdot ('(' :: (joined (entries.map Prod.fst) ++ ')' :: tail)) rfl
  have hbegin := hfresh ('(' :: (joined (entries.map Prod.fst) ++ ')' :: tail)) rfl
  have hfollows : ChainFollows integer ('(' :: (joined (entries.map Prod.fst) ++ ')' :: tail)) :=
    ⟨⟨rfl, by rw [markOf_eq hopen]; decide⟩, by simp⟩
  have hstops : suffixStops false ('(' :: (joined (entries.map Prod.fst) ++ ')' :: tail)) :=
    ⟨by rw [markOf_eq hopen]; decide, by simp⟩
  have hcallee : Reads (primary g false >>= suffixed g false false) _ _ (Operand.SameAs callee) :=
    hchain.reads hfollows hstops
  have hwhole : ∀ origin : Cursor, Reads (do
      let first ← primary g false
      let callee ← suffixed g false false first
      let args ← if (← get).nextMark == "(" then arguments g else pure []
      let value ← node origin .newExpression
        [(.callee, .node callee.node), (.arguments, .list args)]
      return (⟨value, origin, .other⟩ : Operand))
      (text ++ '(' :: (joined (entries.map Prod.fst) ++ ')' :: tail)) tail
      fun o => ∃ span callee' args, callee'.sameStructure callee = true ∧
        sameSequence args (entries.map Prod.snd) = true ∧
        o.node = .mk .newExpression span [(.callee, .node callee'), (.arguments, .list args)] ∧
          o.form = .other := by
    intro origin
    rw [← bind_assoc]
    refine hcallee.bind fun found hfound => ?_
    refine .get fun cur hcur => ?_
    have hnext : cur.nextMark = "(" := by rw [Cursor.nextMark_eq, hcur, markOf_eq hopen]
    simp only [hnext, BEq.rfl, if_true]
    refine (reads_arguments hentries).bind fun args hargs => ?_
    refine Reads.newNode.bind fun n hn => ?_
    obtain ⟨span, rfl⟩ := hn
    exact .of_pure ⟨span, found.node, args, hfound.same, hargs, rfl, rfl⟩
  refine (Reads.start (skipped_name hname _)).bind fun origin _ => ?_
  refine (Reads.keyword hkeyword).bind fun _ _ => ?_
  refine .get fun cur hcur => ?_
  have hnoTarget : (cur.nextMark == ".") = false := by
    rw [Cursor.nextMark_eq, hcur, markOf_space]
    simpa using hafter
  simp only [hnoTarget, Bool.false_eq_true, if_false]
  refine .get fun cur' hcur' => ?_
  have hnext : cur'.nextWord =
      wordOf (text ++ '(' :: (joined (entries.map Prod.fst) ++ ')' :: tail)) := by
    rw [Cursor.nextWord_eq, hcur', wordOf_space]
  by_cases hnew : wordOf (text ++ '(' :: (joined (entries.map Prod.fst) ++ ')' :: tail)) = "new"
  · simp only [hnext, hnew, BEq.rfl, if_true]
    exact goesOn_construct hskips hbegin hnew (hwhole origin)
  · have hother : (cur'.nextWord == "new") = false := by simpa [hnext] using hnew
    simp only [hother, Bool.false_eq_true, if_false]
    exact .blank (.bind skips_primary) rfl (hwhole origin)

/-! ## Operands with signs and assignments -/

/-- No sign and no word that takes an operand stands in front. -/
structure OpensPlainly (text : List Char) : Prop where
  fresh : isFresh text = true
  word : wordOf text ∉ ["typeof", "void", "delete", "await", "yield"]
  sign : markOf text ∉ ["!", "~", "+", "-", "++", "--"]

theorem goesOn_operand
    {β : Type} {next : β → Parser Operand} {Q : β → Prop} {text output : List Char}
    (hopens : OpensPlainly text)
    (hplain : GoesOn (do
      let first ← primary g lineEnds
      let whole ← suffixed g true lineEnds first
      assigned g lineEnds whole) text output next Q) :
    GoesOn (operand g lineEnds) text output next Q := by
  refine (Reads.operandStart hopens.fresh).bind fun origin horigin => ?_
  have hword := hopens.word
  have hsign := hopens.sign
  rw [← horigin, ← Cursor.nextWord_eq] at hword
  rw [← horigin, ← Cursor.nextMark_eq] at hsign
  cases hfound : origin.word? with
  | some found =>
      simp only [Cursor.nextWord, hfound, Option.map_some, Option.getD_some, List.mem_cons,
        List.not_mem_nil, or_false, not_or] at hword
      simp only [beq_iff_eq, hword, Bool.or_eq_true, or_self, if_false]
      exact hplain
  | none =>
      cases hmark : origin.mark? with
      | some found =>
          simp only [Cursor.nextMark, hmark, Option.map_some, Option.getD_some, List.mem_cons,
            List.not_mem_nil, or_false, not_or] at hsign
          simp only [beq_iff_eq, hsign, Bool.or_eq_true, or_self, if_false]
          exact hplain
      | none =>
          exact hplain

theorem reads_assigned_none {left : Operand} (htail : markOf tail ∉ assignmentMarks) :
    Reads (assigned g lineEnds left) tail tail (· = left) := by
  refine .get fun cur hcur => ?_
  have hnext : cur.nextMark ∉ assignmentMarks := by rwa [Cursor.nextMark_eq, hcur]
  cases hfound : cur.mark? with
  | none => exact .of_pure rfl
  | some found =>
      simp only [Cursor.nextMark, hfound, Option.map_some, Option.getD_some] at hnext
      simp only [List.contains_eq_mem, hnext, decide_false, Bool.false_eq_true, if_false]
      exact .of_pure rfl

theorem assignmentMarks_subset : ∀ mark ∈ assignmentMarks, mark ∈ punctuators := by
  decide +kernel

theorem reads_assigned
    {left : Operand} {operator : String}
    (hoperator : operator ∈ assignmentMarks)
    (hform : left.form = .name ∨ left.form = .member ∨ left.form = .group)
    {text : List Char} {P : Node → Prop}
    (hright : Reads (g.expression lineEnds) (' ' :: (text ++ tail)) tail fun o => P o.node) :
    Reads (assigned g lineEnds left) (' ' :: (operator.toList ++ ' ' :: (text ++ tail))) tail
      fun o => ∃ span right, P right ∧
        o.node = .mk .assignmentExpression span
          [(.operator, .text operator), (.left, .node left.node), (.right, .node right)] := by
  have hmark : markAt (' ' :: (operator.toList ++ ' ' :: (text ++ tail))) =
      some (operator, ' ' :: (text ++ tail)) := by
    rw [markAt_space, markAt_spaced (assignmentMarks_subset operator hoperator)]
  refine .get fun cur hcur => ?_
  obtain ⟨next, hfound, hnext⟩ := Cursor.exists_mark? hcur hmark
  simp only [hfound, List.contains_eq_mem, hoperator, decide_true, if_true]
  have hleft : Reads (assignmentLeft? g operator left)
      (' ' :: (operator.toList ++ ' ' :: (text ++ tail)))
      (' ' :: (operator.toList ++ ' ' :: (text ++ tail))) (· = some left.node) := by
    unfold assignmentLeft?
    rcases hform with hform | hform | hform <;> rw [hform] <;> exact .of_pure rfl
  refine hleft.bind fun found hfound => ?_
  rw [hfound]
  refine .set hnext ?_
  refine hright.bind fun right hright => ?_
  refine Reads.newNode.bind fun n hn => ?_
  obtain ⟨span, rfl⟩ := hn
  exact .of_pure ⟨span, right.node, hright, rfl⟩

theorem suffixStops_of_notMem (htail : markOf tail ∉ suffixMarks) (calls : Bool) :
    suffixStops calls tail := by
  simp only [suffixMarks, List.mem_cons, List.not_mem_nil, or_false, not_or] at htail
  simp [suffixStops, htail]

theorem Stops.chainFollows {least : Nat} (htail : Stops least tail) (integer : Bool) :
    ChainFollows integer tail :=
  ⟨htail.toFollows, fun _ => htail.noDot⟩

theorem reads_operand_chain
    {integer : Bool} {text : List Char} {n : Node} {least : Nat}
    (hchain : Chains g true integer text n)
    (hopens : OpensPlainly (text ++ tail))
    (htail : Stops least tail) :
    Reads (operand g lineEnds) (text ++ tail) tail fun o => o.node.sameStructure n = true := by
  refine goesOn_operand hopens ?_
  rw [← bind_assoc]
  refine (hchain.reads (htail.chainFollows integer)
    (suffixStops_of_notMem htail.noSuffix true)).bind fun o ho => ?_
  refine (reads_assigned_none htail.noAssignment).imp fun o' ho' => ?_
  rw [ho']
  exact ho.same

theorem reads_operand_assignment
    {integer : Bool} {text rightText : List Char} {left : Node} {operator : String}
    {P : Node → Prop}
    (hchain : Chains g true integer text left)
    (htarget : left.kind = .identifier ∨ left.kind = .memberExpression)
    (hoperator : operator ∈ assignmentMarks)
    (hopens : OpensPlainly (text ++ ' ' :: (operator.toList ++ ' ' :: (rightText ++ tail))))
    (hright : Reads (g.expression lineEnds) (' ' :: (rightText ++ tail)) tail fun o => P o.node) :
    Reads (operand g lineEnds) (text ++ ' ' :: (operator.toList ++ ' ' :: (rightText ++ tail))) tail
      fun o => ∃ span left' right, left'.sameStructure left = true ∧ P right ∧
        o.node = .mk .assignmentExpression span
          [(.operator, .text operator), (.left, .node left'), (.right, .node right)] := by
  have hmark : markOf (' ' :: (operator.toList ++ ' ' :: (rightText ++ tail))) = operator := by
    have hfound := markAt_spaced (assignmentMarks_subset operator hoperator) (rightText ++ tail)
    rw [markOf_space, markOf_eq hfound]
  have hnot : operator ≠ "=>" ∧ operator ∉ suffixMarks := by
    have hall : ∀ mark ∈ assignmentMarks, mark ≠ "=>" ∧ mark ∉ suffixMarks := by
      decide +kernel
    exact hall operator hoperator
  refine goesOn_operand hopens ?_
  rw [← bind_assoc]
  have hfollows : ChainFollows integer (' ' :: (operator.toList ++ ' ' :: (rightText ++ tail))) :=
    ⟨⟨rfl, by rw [hmark]; exact hnot.1⟩, by simp⟩
  have hstops : suffixStops true (' ' :: (operator.toList ++ ' ' :: (rightText ++ tail))) :=
    suffixStops_of_notMem (by rw [hmark]; exact hnot.2) true
  refine (hchain.reads hfollows hstops).bind fun o ho => ?_
  refine (reads_assigned hoperator (ho.target htarget) hright).imp fun o' ho' => ?_
  obtain ⟨span, right, hP, hnode⟩ := ho'
  exact ⟨span, o.node, right, ho.same, hP, hnode⟩

/-- The words in front of an operand. -/
def unaryWords : List String := ["typeof", "void", "delete"]

/-- The signs in front of an operand. -/
def unarySigns : List (Char × String) := [('!', "!"), ('~', "~"), ('+', "+"), ('-', "-")]

theorem reads_unary
    {origin : Cursor} {operator : String} {text : List Char} {P : Node → Prop}
    (hargument : Reads (g.operation unaryStrength lineEnds) text tail fun o => P o.node) :
    Reads (unary g lineEnds origin operator) text tail fun o =>
      ∃ span argument, P argument ∧ o.node = .mk .unaryExpression span
        [(.operator, .text operator), (.argument, .node argument)] := by
  refine hargument.bind fun argument hP => ?_
  refine Reads.newNode.bind fun n hn => ?_
  obtain ⟨span, rfl⟩ := hn
  exact .of_pure ⟨span, argument.node, hP, rfl⟩

theorem reads_prefixUpdate
    {origin : Cursor} {operator : String} {text : List Char} {P : Node → Prop}
    (hargument : Reads (g.operation unaryStrength lineEnds) text tail fun o => P o.node) :
    Reads (prefixUpdate g lineEnds origin operator) text tail fun o =>
      ∃ span argument, P argument ∧ o.node = .mk .updateExpression span
        [(.operator, .text operator), (.argument, .node argument), (.prefixed, .flag true)] := by
  refine hargument.bind fun argument hP => ?_
  refine Reads.newNode.bind fun n hn => ?_
  obtain ⟨span, rfl⟩ := hn
  exact .of_pure ⟨span, argument.node, hP, rfl⟩

theorem reads_operand_word
    {operator : String} {text : List Char} {P : Node → Prop}
    (hoperator : operator ∈ unaryWords)
    (hargument : Reads (g.operation unaryStrength lineEnds) (' ' :: text) tail fun o => P o.node) :
    Reads (operand g lineEnds) (operator.toList ++ ' ' :: text) tail fun o =>
      ∃ span argument, P argument ∧ o.node = .mk .unaryExpression span
        [(.operator, .text operator), (.argument, .node argument)] := by
  have hname : isNameText operator.toList = true := by
    have hall : ∀ word ∈ unaryWords, isNameText word.toList = true := by decide
    exact hall operator hoperator
  refine (Reads.operandStart (isFresh_of_isNameText hname)).bind fun origin horigin => ?_
  have hends : endsName (' ' :: text) = true := rfl
  obtain ⟨next, hfound, hnext⟩ := Cursor.exists_word? horigin (wordAt_append hname hends)
  have hunary : (operator == "typeof" || operator == "void" || operator == "delete") = true := by
    simpa [unaryWords, or_assoc] using hoperator
  simp only [hfound, hunary, if_true]
  exact .set hnext (reads_unary hargument)

/-- A sign is read by itself in front of anything that it does not fuse with. -/
theorem sign_facts :
    ∀ sign ∈ unarySigns, ∀ (d : Char) (rest : List Char), d ≠ '=' →
      (sign.1 = '+' ∨ sign.1 = '-' → d ≠ sign.1) →
      isFresh (sign.1 :: d :: rest) = true ∧ punctuator? (sign.1 :: d :: rest) = some sign.2 ∧
        isNameChar sign.1 = false ∧ sign.1 ≠ '\\' ∧ sign.2.length = 1 ∧
          (sign.2 == "!" || sign.2 == "~" || sign.2 == "+" || sign.2 == "-") = true := by
  simp only [unarySigns, List.forall_mem_cons]
  and_intros
  all_goals first
    | (intro d rest hequal hself
       simp only [true_or, or_true, forall_const, ne_eq] at hself
       refine ⟨?_, ?_, by decide, by decide, rfl, by decide⟩
       · simp [isFresh, startsWith, List.isPrefixOf, Ne.symm hself, isBlank, inRanges, blankRanges]
       · simp [punctuator?, punctuators, startsWith, List.isPrefixOf, Ne.symm hself, hequal.symm])
    | (intro d rest hequal _
       refine ⟨rfl, ?_, by decide, by decide, rfl, by decide⟩
       simp [punctuator?, punctuators, startsWith, List.isPrefixOf, hequal.symm])
    | simp

theorem reads_operand_sign
    {c : Char} {operator : String}
    (hoperator : (c, operator) ∈ unarySigns)
    {d : Char} {text : List Char}
    (hequal : d ≠ '=') (hself : c = '+' ∨ c = '-' → d ≠ c)
    {P : Node → Prop}
    (hargument : Reads (g.operation unaryStrength lineEnds) (d :: text) tail fun o => P o.node) :
    Reads (operand g lineEnds) (c :: d :: text) tail fun o =>
      ∃ span argument, P argument ∧ o.node = .mk .unaryExpression span
        [(.operator, .text operator), (.argument, .node argument)] := by
  obtain ⟨hfresh, hfound, hname, hescape, hlength, hsign⟩ :=
    sign_facts _ hoperator d text hequal hself
  have hmark : markAt (c :: d :: text) = some (operator, d :: text) := by
    rw [markAt_of_isFresh hfresh, hfound, Option.map_some, hlength]
    rfl
  refine (Reads.operandStart hfresh).bind fun origin horigin => ?_
  have hword : origin.word? = none :=
    Cursor.word?_eq_none horigin (wordAt_of_stop hfresh hname hescape)
  obtain ⟨next, hmark?, hnext⟩ := Cursor.exists_mark? horigin hmark
  simp only [hword, hmark?, hsign, if_true]
  exact .set hnext (reads_unary hargument)

theorem reads_operand_update
    {operator : String}
    (hoperator : operator ∈ ["++", "--"])
    {text : List Char} {P : Node → Prop}
    (hfresh : isFresh (operator.toList ++ text) = true)
    (hargument : Reads (g.operation unaryStrength lineEnds) text tail fun o => P o.node) :
    Reads (operand g lineEnds) (operator.toList ++ text) tail fun o =>
      ∃ span argument, P argument ∧ o.node = .mk .updateExpression span
        [(.operator, .text operator), (.argument, .node argument), (.prefixed, .flag true)] := by
  have hmark := markAt_update hoperator text
  refine (Reads.operandStart hfresh).bind fun origin horigin => ?_
  obtain ⟨next, hmark?, hnext⟩ := Cursor.exists_mark? horigin hmark
  simp only [List.mem_cons, List.not_mem_nil, or_false] at hoperator
  have hword : origin.word? = none := by
    refine Cursor.word?_eq_none horigin ?_
    rcases hoperator with rfl | rfl
    · exact wordAt_of_stop hfresh (by decide) (by decide)
    · exact wordAt_of_stop hfresh (by decide) (by decide)
  have hsign : (operator == "!" || operator == "~" || operator == "+" || operator == "-") = false ∧
      (operator == "++" || operator == "--") = true := by
    rcases hoperator with rfl | rfl <;> decide
  simp only [hword, hmark?, hsign, if_true, Bool.false_eq_true, if_false]
  exact .set hnext (reads_prefixUpdate hargument)

/-! ## The loop over operators -/

theorem binaryOperator?_of_some
    {cur : Cursor} {text after : List Char} {operator : String} {strength : Nat}
    (hcur : cur.rest = text)
    (hfound : operatorAt text = some (operator, after))
    (hstrength : binaryStrength? operator = some strength) :
    ∃ next, binaryOperator? cur = some (operator, strength, next) ∧ next.rest = after := by
  rw [operatorAt] at hfound
  cases hmark : markAt text with
  | some found =>
      rw [hmark] at hfound
      cases hfound
      obtain ⟨next, hmark?, hnext⟩ := Cursor.exists_mark? hcur hmark
      exact ⟨next, by simp [binaryOperator?, hmark?, hstrength], hnext⟩
  | none =>
      rw [hmark] at hfound
      have hmark? := Cursor.mark?_eq_none hcur hmark
      obtain ⟨next, hword?, hnext⟩ := Cursor.exists_word? hcur hfound
      exact ⟨next, by simp [binaryOperator?, hmark?, hword?, hstrength], hnext⟩

theorem binaryOperator?_cases
    {cur : Cursor} {text : List Char}
    (hcur : cur.rest = text) :
    binaryOperator? cur = none ∨
      ∃ operator after strength next, operatorAt text = some (operator, after) ∧
        binaryStrength? operator = some strength ∧
        binaryOperator? cur = some (operator, strength, next) := by
  cases hfound : operatorAt text with
  | none =>
      left
      rw [operatorAt] at hfound
      cases hmark : markAt text with
      | some found => simp [hmark] at hfound
      | none =>
          rw [hmark] at hfound
          simp [binaryOperator?, Cursor.mark?_eq_none hcur hmark,
            Cursor.word?_eq_none hcur hfound]
  | some found =>
      obtain ⟨operator, after⟩ := found
      cases hstrength : binaryStrength? operator with
      | some strength =>
          obtain ⟨next, hsome, -⟩ := binaryOperator?_of_some hcur hfound hstrength
          exact .inr ⟨operator, after, strength, next, rfl, hstrength, hsome⟩
      | none =>
          left
          rw [operatorAt] at hfound
          cases hmark : markAt text with
          | some found =>
              rw [hmark] at hfound
              cases hfound
              obtain ⟨next, hmark?, -⟩ := Cursor.exists_mark? hcur hmark
              simp [binaryOperator?, hmark?, hstrength]
          | none =>
              rw [hmark] at hfound
              obtain ⟨next, hword?, -⟩ := Cursor.exists_word? hcur hfound
              simp [binaryOperator?, Cursor.mark?_eq_none hcur hmark, hword?, hstrength]

/-- The loop ends in front of a text that stops it. -/
theorem reads_operators_none
    {least fuel : Nat} {left : Operand}
    (htail : Stops least tail) :
    Reads (operators g least lineEnds fuel left) tail tail (· = left) := by
  cases fuel with
  | zero => exact .of_pure rfl
  | succ fuel =>
      refine .get fun cur hcur => ?_
      rcases binaryOperator?_cases hcur with
        hnone | ⟨operator, after, strength, next, hfound, hstrength, hsome⟩
      · have hstop : (decide (conditionalStrength < least) || cur.nextMark != "?") = true := by
          rw [Cursor.nextMark_eq, hcur]
          by_cases hquestion : markOf tail = "?"
          · simp [htail.noTest hquestion]
          · simp [hquestion]
        simp only [hnone, hstop, if_true]
        exact .of_pure rfl
      · have hlt := htail.noOperator operator after strength hfound hstrength
        simp only [hsome, hlt, if_true]
        exact .of_pure rfl

/-- The text starts an operation with the tree `n`: the loop over operators of at most the
strength `level` gets to its end with an operand like `n`, in front of any text that ends an
operation of the strength `reach`. -/
def Operates (g : Productions) (level reach : Nat) (text : List Char) (n : Node) : Prop :=
  ∀ (least : Nat) (lineEnds : Bool) (tail : List Char), least ≤ level → Stops reach tail →
    GoesOn (operation g least lineEnds) (text ++ tail) tail
      (fun state : Nat × Operand => operators g least lineEnds state.1 state.2)
      (fun state => tail.length < state.1 ∧ state.2.node.sameStructure n = true)

theorem Operates.of_operand
    {level reach : Nat} {text : List Char} {n : Node}
    (hread : ∀ lineEnds tail, Stops reach tail →
      Reads (operand g lineEnds) (text ++ tail) tail fun o => o.node.sameStructure n = true) :
    Operates g level reach text n := by
  intro least lineEnds tail _ htail
  refine (hread lineEnds tail htail).bind fun o ho => ?_
  refine .get fun cur hcur => ?_
  exact fun stop hstop => ⟨(cur.rest.length + 1, o), stop, rfl, hstop, by simp [hcur], ho⟩

/-- An operation that nothing continues. -/
theorem Operates.reads
    {level reach least : Nat} {text : List Char} {n : Node}
    (hoperates : Operates g level reach text n)
    (hlevel : least ≤ level)
    (hreach : level ≤ reach)
    (htail : Stops least tail) :
    Reads (operation g least lineEnds) (text ++ tail) tail fun o =>
      o.node.sameStructure n = true := by
  refine (hoperates least lineEnds tail hlevel (htail.mono (Nat.le_trans hlevel hreach))).trans
    fun state hstate => ?_
  refine (reads_operators_none htail).imp fun o ho => ?_
  rw [ho]
  exact hstate.2

/-- One round of the loop takes a binary operator and its right operand. -/
theorem Operates.binary
    {level reach strength : Nat} {text rightText : List Char} {left right whole : Node}
    {operator : String}
    (hoperates : Operates g level reach text left)
    (hoperator : operator ∈ binaryOperators)
    (hstrength : binaryStrength? operator = some strength)
    (hlevel : strength ≤ level)
    (hreach : strength < reach)
    (hright : ∀ lineEnds tail, Stops (rightStrength operator strength) tail →
      Reads (g.operation (rightStrength operator strength) lineEnds)
        (' ' :: (rightText ++ tail)) tail fun o => o.node.sameStructure right = true)
    (hwhole : ∀ span left' right', left'.sameStructure left = true →
      right'.sameStructure right = true →
        (Node.mk (if isLogical operator then Kind.logicalExpression else Kind.binaryExpression) span
          [(.operator, .text operator), (.left, .node left'),
            (.right, .node right')]).sameStructure whole = true) :
    Operates g strength (rightStrength operator strength)
      (text ++ ' ' :: (operator.toList ++ ' ' :: rightText)) whole := by
  intro least lineEnds tail hleast htail
  have htext : text ++ ' ' :: (operator.toList ++ ' ' :: rightText) ++ tail =
      text ++ ' ' :: (operator.toList ++ ' ' :: (rightText ++ tail)) := by simp
  rw [htext]
  have hstops : Stops reach (' ' :: (operator.toList ++ ' ' :: (rightText ++ tail))) :=
    .binary hoperator hstrength hreach _
  refine (hoperates least lineEnds _ (Nat.le_trans hleast hlevel) hstops).trans
    fun state hstate => ?_
  obtain ⟨fuel, o⟩ := state
  obtain ⟨hfuel, ho⟩ := hstate
  have hlength : tail.length + 1 < fuel := by
    simp only [List.length_cons, List.length_append] at hfuel
    omega
  obtain ⟨fuel, rfl⟩ : ∃ n, fuel = n + 1 := ⟨fuel - 1, by omega⟩
  refine .get fun cur hcur => ?_
  obtain ⟨next, hsome, hnext⟩ :=
    binaryOperator?_of_some hcur (operatorAt_spaced hoperator _) hstrength
  have hnot : ¬strength < least := by omega
  simp only [hsome, hnot, if_false]
  refine .set hnext ?_
  refine (hright lineEnds tail htail).bind fun found hfound => ?_
  refine Reads.newNode.bind fun n hn => ?_
  obtain ⟨span, rfl⟩ := hn
  exact fun stop hstop =>
    ⟨(fuel, ⟨_, o.origin, .other⟩), stop, rfl, hstop, by simp only; omega, hwhole _ _ _ ho hfound⟩

/-- One round of the loop takes the two branches of a conditional. -/
theorem Operates.conditional
    {level reach : Nat} {text thenText elseText : List Char}
    {test consequent alternate whole : Node}
    (hoperates : Operates g level reach text test)
    (hlevel : conditionalStrength ≤ level)
    (hreach : conditionalStrength < reach)
    (hthen : ∀ tail, Stops 0 tail → Reads (g.expression false) (' ' :: (thenText ++ tail)) tail
      fun o => o.node.sameStructure consequent = true)
    (helse : ∀ lineEnds tail, Stops conditionalStrength tail →
      Reads (g.operation conditionalStrength lineEnds) (' ' :: (elseText ++ tail)) tail
        fun o => o.node.sameStructure alternate = true)
    (hwhole : ∀ span test' consequent' alternate', test'.sameStructure test = true →
      consequent'.sameStructure consequent = true → alternate'.sameStructure alternate = true →
        (Node.mk .conditionalExpression span [(.test, .node test'),
          (.consequent, .node consequent'), (.alternate, .node alternate')]).sameStructure whole =
            true) :
    Operates g conditionalStrength conditionalStrength
      (text ++ ' ' :: '?' :: ' ' :: (thenText ++ ' ' :: ':' :: ' ' :: elseText)) whole := by
  intro least lineEnds tail hleast htail
  have htext : text ++ ' ' :: '?' :: ' ' :: (thenText ++ ' ' :: ':' :: ' ' :: elseText) ++ tail =
      text ++ ' ' :: ("?".toList ++ ' ' :: (thenText ++ ' ' :: (":".toList ++
        ' ' :: (elseText ++ tail)))) := by simp
  rw [htext]
  have hquestion := markAt_spaced (by decide : "?" ∈ punctuators)
    (thenText ++ ' ' :: (":".toList ++ ' ' :: (elseText ++ tail)))
  have hcolon := markAt_spaced (by decide : ":" ∈ punctuators) (elseText ++ tail)
  have hstops : Stops reach (' ' :: ("?".toList ++ ' ' :: (thenText ++ ' ' :: (":".toList ++
      ' ' :: (elseText ++ tail))))) := by
    refine .spaced (by decide) ?_ _
    simp [markStops, suffixMarks, assignmentMarks, binaryStrength?, hreach]
  refine (hoperates least lineEnds _ (Nat.le_trans hleast hlevel) hstops).trans
    fun state hstate => ?_
  obtain ⟨fuel, o⟩ := state
  obtain ⟨hfuel, ho⟩ := hstate
  have hlength : tail.length + 1 < fuel := by
    simp only [List.length_cons, List.length_append] at hfuel
    omega
  obtain ⟨fuel, rfl⟩ : ∃ n, fuel = n + 1 := ⟨fuel - 1, by omega⟩
  refine .get fun cur hcur => ?_
  have hnext : cur.nextMark = "?" := by
    rw [Cursor.nextMark_eq, hcur, markOf_space, markOf_eq hquestion]
  have hnone : binaryOperator? cur = none := by
    obtain ⟨next, hmark?, -⟩ := Cursor.exists_mark? hcur (by rw [markAt_space]; exact hquestion)
    simp [binaryOperator?, hmark?, binaryStrength?]
  have hnot : ¬conditionalStrength < least := by omega
  simp only [hnone, hnot, decide_false, hnext, bne_self_eq_false, Bool.or_self, Bool.false_eq_true,
    if_false]
  refine (Reads.mark (by rw [markAt_space]; exact hquestion)).bind fun _ _ => ?_
  refine (hthen _ ?_).bind fun found hfound => ?_
  · refine .spaced (by decide) ?_ _
    simp [markStops, suffixMarks, assignmentMarks, binaryStrength?]
  refine (Reads.mark (by rw [markAt_space]; exact hcolon)).bind fun _ _ => ?_
  refine (helse lineEnds tail htail).bind fun found' hfound' => ?_
  refine Reads.newNode.bind fun n hn => ?_
  obtain ⟨span, rfl⟩ := hn
  exact fun stop hstop => ⟨(fuel, ⟨_, o.origin, .other⟩), stop, rfl, hstop, by simp only; omega,
    hwhole _ _ _ _ ho hfound hfound'⟩

/-! ## Sequences -/

/-- A text that is read as an expression without commas at its top. -/
def ReadsExpression (g : Productions) (lineEnds : Bool) (text : List Char) (n : Node) : Prop :=
  ∀ tail, Stops 0 tail →
    Reads (g.expression lineEnds) (text ++ tail) tail fun o => o.node.sameStructure n = true

theorem reads_expressions_single
    {text : List Char} {n : Node}
    (hread : ReadsExpression g lineEnds text n)
    (htail : Stops 0 tail)
    (hcomma : markOf tail ≠ ",") :
    Reads (g.expressions lineEnds) (text ++ tail) tail fun found =>
      found.sameStructure n = true := by
  refine (hread tail htail).bind fun first hfirst => ?_
  have hrounds : Rounds (fun cur => cur.nextMark == ",") (do
      mark ","
      g.expression lineEnds) (fun (_ : Node) (_ : Operand) => True) [] tail tail := by
    refine .nil fun cur hcur => ?_
    rw [Cursor.nextMark_eq, hcur]
    simpa using hcomma
  refine hrounds.whileMore.bind fun more hmore => ?_
  cases hmore
  exact .of_pure hfirst

theorem rounds_expressions
    (hskips : Skips (g.expression lineEnds)) (htail : Stops 0 tail) (hcomma : markOf tail ≠ ",")
    {entries : List (List Char × Node)}
    (hentries : ∀ entry ∈ entries, ReadsExpression g lineEnds entry.1 entry.2) :
    Rounds (fun cur => cur.nextMark == ",") (do
      mark ","
      g.expression lineEnds) (fun n o => o.node.sameStructure n = true) (entries.map Prod.snd)
      ((entries.map Prod.fst).flatMap (fun text => ',' :: ' ' :: text) ++ tail) tail := by
  induction entries with
  | nil =>
      refine .nil fun cur hcur => ?_
      rw [Cursor.nextMark_eq, hcur]
      simpa using hcomma
  | cons entry entries ih =>
      have hrest := ih fun e he => hentries e (List.mem_cons_of_mem _ he)
      have hstops :
          Stops 0 ((entries.map Prod.fst).flatMap (fun text => ',' :: ' ' :: text) ++ tail) := by
        cases entries with
        | nil => exact htail
        | cons next entries => exact .closer (by decide : (',', ",") ∈ closers) 0 _
      have hmark : ∀ rest, markAt (',' :: rest) = some (",", rest) := markAt_closer (by decide)
      rw [List.map_cons, List.map_cons, List.flatMap_cons, List.cons_append, List.cons_append,
        List.append_assoc]
      refine .cons ?_ ?_ ?_ hrest
      · intro cur hcur
        rw [Cursor.nextMark_eq, hcur, markOf_eq (hmark _)]
        rfl
      · refine (Reads.mark (hmark _)).bind fun _ _ => ?_
        exact .blank hskips rfl (hentries entry List.mem_cons_self _ hstops)
      · simp only [List.length_cons, List.length_append]
        omega

theorem reads_expressions_sequence
    (hskips : Skips (g.expression lineEnds)) (htail : Stops 0 tail) (hcomma : markOf tail ≠ ",")
    {first second : List Char × Node} {entries : List (List Char × Node)}
    (hentries : ∀ entry ∈ first :: second :: entries, ReadsExpression g lineEnds entry.1 entry.2) :
    Reads (g.expressions lineEnds)
      (joined ((first :: second :: entries).map Prod.fst) ++ tail) tail fun found =>
        ∃ span parts, found = .mk .sequenceExpression span [(.expressions, .list parts)] ∧
          sameSequence parts ((first :: second :: entries).map Prod.snd) = true := by
  have hrest : ∀ entry ∈ second :: entries, ReadsExpression g lineEnds entry.1 entry.2 :=
    fun e he => hentries e (List.mem_cons_of_mem _ he)
  have hrounds := rounds_expressions hskips htail hcomma hrest
  have hstops : Stops 0
      (((second :: entries).map Prod.fst).flatMap (fun text => ',' :: ' ' :: text) ++ tail) :=
    .closer (by decide : (',', ",") ∈ closers) 0 _
  rw [List.map_cons, joined, List.append_assoc]
  refine (hentries first List.mem_cons_self _ hstops).bind fun o ho => ?_
  refine hrounds.whileMore.bind fun more hmore => ?_
  have hsame : sameSequence (more.map Operand.node) ((second :: entries).map Prod.snd) = true := by
    rw [sameSequence_iff, List.forall₂_map_left_iff]
    exact hmore.flip
  cases hmore with
  | cons hsecond hothers =>
      refine Reads.newNode.imp fun found hfound => ?_
      obtain ⟨span, rfl⟩ := hfound
      exact ⟨span, _, rfl, by simpa [sameSequence, ho] using hsame⟩

/-! ## The grammar of some depth -/

/-- The grammar whose productions refer to each other to the given depth. -/
def depth (d : Nat) : Productions := Nat.repeat unrolled d .none

theorem skips_operand : Skips (operand g lineEnds) := .bind .operandStart

theorem skips_operation (d least : Nat) : Skips ((depth d).operation least lineEnds) := by
  cases d with
  | zero => exact .unexpected
  | succ d => exact .bind skips_operand

theorem skips_construct (d : Nat) : Skips (depth d).construct := by
  cases d with
  | zero => exact .unexpected
  | succ d => exact .bind .start

end Graft.Grammar
