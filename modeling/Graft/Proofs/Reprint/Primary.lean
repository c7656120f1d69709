import Graft.Proofs.Reprint.Reads
import Graft.Proofs.Reprint.Follow
import Graft.Proofs.Reprint.Quoted

/-!
# Reading operands without operators

Names, constants, numbers, strings, groups and arrays, each read from its text up to a text that
may follow it.
-/

namespace Graft.Grammar

open Text

variable {g : Productions} {lineEnds : Bool} {tail : List Char}

/-! ## Names -/

theorem isNameText_of_isVariable {name : String} (hname : isVariable name = true) :
    isNameText name.toList = true := by
  simp only [isVariable, Bool.and_eq_true] at hname
  exact hname.1.1

theorem isReserved_of_isVariable {name : String} (hname : isVariable name = true) :
    isReserved name = false := by
  simp only [isVariable, Bool.and_eq_true, Bool.not_eq_true'] at hname
  exact hname.1.2

theorem ne_of_isVariable
    {name word : String}
    (hname : isVariable name = true) (hword : isVariable word = false) :
    name ≠ word := by
  rintro rfl
  exact Bool.noConfusion (hname.symm.trans hword)

theorem skipped_name
    {name : List Char}
    (hname : isNameText name = true)
    (tail : List Char) :
    skipped (name ++ tail) = name ++ tail :=
  skipped_of_isFresh (isFresh_of_isNameText hname)

theorem reads_anyName
    {name : String}
    (hname : isNameText name.toList = true) (htail : endsName tail = true) :
    Reads anyName (name.toList ++ tail) tail fun n => ∃ span, n = .identifier name span := by
  refine (Reads.start (skipped_name hname tail)).bind fun origin _ => ?_
  have hlexeme := Reads.lexeme (nameLength?_append hname htail)
  rw [List.take_left, List.drop_left] at hlexeme
  refine hlexeme.bind fun found hfound => ?_
  refine .get fun cur _ => .of_pure ⟨origin.spanTo cur, ?_⟩
  rw [hfound, String.ofList_toList]

theorem reads_variableName
    {name : String}
    (hname : isVariable name = true) (htail : endsName tail = true) :
    Reads variableName (name.toList ++ tail) tail fun n => ∃ span, n = .identifier name span := by
  have htext := isNameText_of_isVariable hname
  refine .get fun cur hcur => ?_
  have hword : cur.nextWord = name := by
    rw [Cursor.nextWord_eq, hcur, wordOf_eq (wordAt_append htext htail)]
  simp only [hword, isReserved_of_isVariable hname, Bool.false_eq_true, if_false]
  exact reads_anyName htext htail

theorem wordOperand_variable
    {name : String}
    (hname : isVariable name = true)
    (g : Productions) (lineEnds : Bool) :
    wordOperand g lineEnds name = (do
      let origin ← start
      let found ← variableName
      if (← get).nextMark == "=>" then
        set origin
        arrow g lineEnds origin false
      else return ⟨found, origin, .name⟩) := by
  have hexport : (name == "export") = false := by
    simpa using ne_of_isVariable hname (by decide +kernel)
  unfold wordOperand
  congr 1
  funext origin
  split
  all_goals first | exact absurd hname (by decide +kernel) | skip
  rw [hexport]
  rfl

theorem reads_wordOperand_variable
    {name : String}
    (hname : isVariable name = true) (htail : Follows tail) :
    Reads (wordOperand g lineEnds name) (name.toList ++ tail) tail fun o =>
      (∃ span, o.node = .identifier name span) ∧ o.form = .name := by
  have htext := isNameText_of_isVariable hname
  rw [wordOperand_variable hname]
  refine (Reads.start (skipped_name htext tail)).bind fun origin _ => ?_
  refine (reads_variableName hname htail.ends).bind fun found hfound => ?_
  refine .get fun cur hcur => ?_
  have harrow : (cur.nextMark == "=>") = false := by
    rw [Cursor.nextMark_eq, hcur]
    simpa using htail.noArrow
  simp only [harrow, Bool.false_eq_true, if_false]
  exact .of_pure ⟨hfound, rfl⟩

/-- An operand that starts with a word is read by that word. -/
theorem reads_primary_word
    {word : String} {P : Operand → Prop} {output : List Char}
    (hword : isNameText word.toList = true)
    (htail : endsName tail = true)
    (hread : Reads (wordOperand g lineEnds word) (word.toList ++ tail) output P) :
    Reads (primary g lineEnds) (word.toList ++ tail) output P := by
  refine (Reads.operandStart (isFresh_of_isNameText hword)).bind fun origin horigin => ?_
  obtain ⟨next, hfound, -⟩ := Cursor.exists_word? horigin (wordAt_append hword htail)
  simp only [hfound]
  exact hread

theorem reads_primary_variable
    {name : String}
    (hname : isVariable name = true) (htail : Follows tail) :
    Reads (primary g lineEnds) (name.toList ++ tail) tail fun o =>
      (∃ span, o.node = .identifier name span) ∧ o.form = .name :=
  reads_primary_word (isNameText_of_isVariable hname) htail.ends
    (reads_wordOperand_variable hname htail)

/-! ## Constants -/

theorem reads_this (htail : endsName tail = true) :
    Reads (primary g lineEnds) ("this".toList ++ tail) tail fun o =>
      (∃ span, o.node = .mk .thisExpression span []) ∧ o.form = .other := by
  have hname : isNameText "this".toList = true := by decide
  refine reads_primary_word hname htail ?_
  refine (Reads.start (skipped_name hname tail)).bind fun origin _ => ?_
  refine (reads_anyName hname htail).bind fun _ _ => ?_
  exact (Reads.node fun span => ⟨span, rfl⟩).bind fun n hn => .of_pure ⟨hn, rfl⟩

theorem reads_constant
    {origin : Cursor} {word : String} {value : Scalar}
    (hname : isNameText word.toList = true) (htail : endsName tail = true) :
    Reads (do
      let _ ← anyName
      return (⟨← literal origin value, origin, .other⟩ : Operand)) (word.toList ++ tail) tail
      fun o => (∃ span, o.node = .mk .literal span [(.value, .scalar value)]) ∧
        o.form = .other := by
  refine (reads_anyName hname htail).bind fun _ _ => ?_
  exact (Reads.node fun span => ⟨span, rfl⟩).bind fun n hn => .of_pure ⟨hn, rfl⟩

/-- The words that stand for values. -/
def constants : List (String × Scalar) :=
  [("null", .null), ("true", .bool true), ("false", .bool false)]

theorem reads_primary_constant
    {word : String} {value : Scalar}
    (hword : (word, value) ∈ constants) (htail : endsName tail = true) :
    Reads (primary g lineEnds) (word.toList ++ tail) tail fun o =>
      (∃ span, o.node = .mk .literal span [(.value, .scalar value)]) ∧ o.form = .other := by
  have hname : isNameText word.toList = true := by
    have hall : ∀ entry ∈ constants, isNameText entry.1.toList = true := by decide
    exact hall _ hword
  refine reads_primary_word hname htail ?_
  simp only [constants, List.mem_cons, Prod.mk.injEq, List.not_mem_nil, or_false] at hword
  rcases hword with ⟨rfl, rfl⟩ | ⟨rfl, rfl⟩ | ⟨rfl, rfl⟩ <;>
    exact (Reads.start (skipped_name hname tail)).bind fun origin _ => reads_constant hname htail

/-! ## Numbers -/

theorem isNameChar_of_isDigit {c : Char} (hc : c.isDigit = true) : isNameChar c = true := by
  have hrange : 48 ≤ c.toNat ∧ c.toNat ≤ 57 := by
    simp only [Char.isDigit, Bool.and_eq_true, decide_eq_true_eq] at hc
    exact hc
  have hblank : isBlank c = false := by
    simp only [isBlank, inRanges, blankRanges, List.any_cons, List.any_nil, Bool.or_false,
      Bool.or_eq_false_iff, Bool.and_eq_false_iff, decide_eq_false_iff_not]
    omega
  have hstop : c ∉ nameStops := by
    have hall : nameStops.all (fun d => !d.isDigit) = true := by decide
    intro hmem
    simpa [hc] using List.all_eq_true.mp hall c hmem
  have hcontrol : 31 < c.toNat := by omega
  simp [isNameChar, hblank, hcontrol, hstop]

theorem not_head_of_endsName
    {c : Char} {rest : List Char}
    (htail : endsName (c :: rest) = true)
    {d : Char}
    (hd : isNameChar d = true) :
    c ≠ d := by
  rintro rfl
  simp [endsName, hd] at htail

theorem digitRun_append
    {digits : List Char}
    (hdigits : digits.all Char.isDigit = true) (htail : endsName tail = true) :
    digitRun Char.isDigit (digits ++ tail) = digits.length := by
  induction digits with
  | nil =>
      cases tail with
      | nil => rfl
      | cons c rest =>
          have hmark : c ≠ '_' := not_head_of_endsName htail (by decide)
          have hdigit : c.isDigit = false := by
            by_contra hdigit
            exact not_head_of_endsName htail (isNameChar_of_isDigit (by simpa using hdigit)) rfl
          simp [digitRun, hmark, hdigit]
  | cons c digits ih =>
      have hall : c.isDigit = true ∧ digits.all Char.isDigit = true := by simpa using hdigits
      have hmark : c ≠ '_' := by
        rintro rfl
        exact Bool.noConfusion hall.1
      simp [digitRun, hmark, hall.1, ih hall.2]

theorem decimalLength?_append
    {digits : List Char}
    (hne : digits ≠ [])
    (hdigits : digits.all Char.isDigit = true)
    (htail : endsName tail = true)
    (hdot : tail.head? ≠ some '.') :
    decimalLength? (digits ++ tail) = some digits.length := by
  have hlength : digitsLength Char.isDigit (digits ++ tail) = digits.length := by
    cases digits with
    | nil => exact absurd rfl hne
    | cons c digits =>
        have hc : c.isDigit = true := by
          simp only [List.all_cons, Bool.and_eq_true] at hdigits
          exact hdigits.1
        have hrun := digitRun_append hdigits htail
        rw [List.cons_append] at hrun ⊢
        simp only [digitsLength, hc, if_true, hrun]
  have hpositive : 0 < digits.length := List.length_pos_iff.mpr hne
  obtain ⟨n, hn⟩ : ∃ n, digits.length = n + 1 := ⟨digits.length - 1, by omega⟩
  have hbig : bigMark tail = 0 := by
    cases tail with
    | nil => rfl
    | cons c rest =>
        have hc : c ≠ 'n' := not_head_of_endsName htail (by decide)
        simp [bigMark, hc]
  have hexponent : exponentLength tail = 0 := by
    cases tail with
    | nil => rfl
    | cons c rest =>
        have hsmall : c ≠ 'e' := not_head_of_endsName htail (by decide)
        have hlarge : c ≠ 'E' := not_head_of_endsName htail (by decide)
        simp [exponentLength, hsmall, hlarge]
  unfold decimalLength?
  rw [hlength, hn]
  simp only
  rw [← hn, List.drop_left, List.take_left, hbig]
  simp only [Nat.zero_ne_one, if_false]
  split
  · split
    · simp at hdot
    · rw [hexponent, Nat.add_zero]
  · rfl

theorem numberLength?_append
    {digits : List Char}
    (hne : digits ≠ [])
    (hdigits : digits.all Char.isDigit = true)
    (htail : endsName tail = true)
    (hdot : tail.head? ≠ some '.') :
    numberLength? (digits ++ tail) = some digits.length := by
  have hdecimal := decimalLength?_append hne hdigits htail hdot
  unfold numberLength?
  split
  · next mark rest heq =>
    have hradix : radixDigits? mark = none := by
      have hmark : mark.isDigit = true ∨ endsName (mark :: rest) = true := by
        cases digits with
        | nil => exact absurd rfl hne
        | cons c digits =>
            cases digits with
            | nil =>
                have htail' : tail = mark :: rest := by simpa using (List.cons.inj heq).2
                exact .inr (htail' ▸ htail)
            | cons d digits =>
                simp only [List.cons_append, List.cons.injEq] at heq
                have hd : d = mark := heq.2.1
                simp only [List.all_cons, Bool.and_eq_true] at hdigits
                exact .inl (hd ▸ hdigits.2.1)
      have hne' : ∀ d ∈ ['x', 'X', 'o', 'O', 'b', 'B'], mark ≠ d := by
        intro d hd
        rcases hmark with hdigit | hends
        · rintro rfl
          have hall : ['x', 'X', 'o', 'O', 'b', 'B'].all (fun d => !d.isDigit) = true := by decide
          simpa [hdigit] using List.all_eq_true.mp hall _ hd
        · have hall : ['x', 'X', 'o', 'O', 'b', 'B'].all isNameChar = true := by decide
          exact not_head_of_endsName hends (List.all_eq_true.mp hall d hd)
      simp [radixDigits?, hne']
    rw [hradix]
    exact heq ▸ hdecimal
  · exact hdecimal

theorem wordAt_of_isDigit {c : Char} {rest : List Char} (hc : c.isDigit = true) :
    wordAt (c :: rest) = none := by
  rw [wordAt_of_isFresh (isFresh_of_isNameChar (isNameChar_of_isDigit hc))]
  simp [nameLength?, hc]

theorem wordAt_of_stop
    {c : Char} {rest : List Char}
    (hfresh : isFresh (c :: rest) = true) (hc : isNameChar c = false) (hescape : c ≠ '\\') :
    wordAt (c :: rest) = none := by
  have hends : endsName (c :: rest) = true := by simp [endsName, hc, hescape]
  have hlength : nameTailLength 0 ([] ++ c :: rest) = 0 := nameTailLength_append rfl hends
  rw [wordAt_of_isFresh hfresh]
  rw [List.nil_append] at hlength
  simp [nameLength?, hlength]

/-- An operand that starts with neither a word nor a bracket is a string or a number. -/
theorem reads_primary_literal
    {c : Char} {rest output : List Char} {P : Node → Prop}
    (hfresh : isFresh (c :: rest) = true)
    (hword : wordAt (c :: rest) = none)
    (hc : c ∉ ['(', '[', '\x7b', '\x60', '/', '<', '@', '#'])
    (hread : Reads (if c = '"' ∨ c = '\'' then stringLiteral else numberLiteral)
      (c :: rest) output P) :
    Reads (primary g lineEnds) (c :: rest) output fun o => P o.node ∧ o.form = .other := by
  refine (Reads.operandStart hfresh).bind fun origin horigin => ?_
  simp only [Cursor.word?_eq_none horigin hword, horigin]
  split
  case h_9 heq =>
    cases heq
    by_cases hquote : c = '"' ∨ c = '\''
    · simp only [hquote, if_true] at hread ⊢
      exact hread.bind fun n hn => .of_pure ⟨hn, rfl⟩
    · simp only [hquote, if_false] at hread ⊢
      exact hread.bind fun n hn => .of_pure ⟨hn, rfl⟩
  all_goals simp_all

theorem reads_numberLiteral
    {raw : String}
    (hne : raw.toList ≠ [])
    (hraw : raw.toList.all Char.isDigit = true)
    (hfresh : isFresh (raw.toList ++ tail) = true)
    (htail : endsName tail = true)
    (hdot : tail.head? ≠ some '.') :
    Reads numberLiteral (raw.toList ++ tail) tail fun n =>
      ∃ span, n = .mk .literal span [(.value, .scalar (.num (Numeral.value? raw) raw))] := by
  refine (Reads.start (skipped_of_isFresh hfresh)).bind fun origin _ => ?_
  have hlexeme := Reads.lexeme (numberLength?_append hne hraw htail hdot)
  rw [List.take_left, List.drop_left] at hlexeme
  refine hlexeme.bind fun found hfound => ?_
  rw [hfound, String.ofList_toList]
  exact Reads.node fun span => ⟨span, rfl⟩

theorem reads_primary_number
    {raw : String}
    (hne : raw.toList ≠ [])
    (hraw : raw.toList.all Char.isDigit = true)
    (htail : endsName tail = true)
    (hdot : tail.head? ≠ some '.') :
    Reads (primary g lineEnds) (raw.toList ++ tail) tail fun o =>
      (∃ span, o.node = .mk .literal span [(.value, .scalar (.num (Numeral.value? raw) raw))]) ∧
        o.form = .other := by
  obtain ⟨c, digits, hdigits⟩ : ∃ c digits, raw.toList = c :: digits :=
    List.exists_cons_of_ne_nil hne
  have hc : c.isDigit = true := by
    rw [hdigits, List.all_cons, Bool.and_eq_true] at hraw
    exact hraw.1
  have hname : isNameChar c = true := isNameChar_of_isDigit hc
  have hstops : ∀ d ∈ ['(', '[', '\x7b', '\x60', '/', '<', '@', '#', '"', '\''], c ≠ d := by
    have hall : ['(', '[', '\x7b', '\x60', '/', '<', '@', '#', '"', '\''].all
        nameStops.contains = true := by decide
    exact fun d hd => ne_of_isNameChar hname (List.all_eq_true.mp hall d hd)
  have hfresh : isFresh (raw.toList ++ tail) = true := by
    rw [hdigits]
    exact isFresh_of_isNameChar hname
  have hliteral := reads_numberLiteral hne hraw hfresh htail hdot
  rw [hdigits, List.cons_append] at hfresh hliteral ⊢
  have hquote : ¬(c = '"' ∨ c = '\'') := by simp [hstops]
  have hbracket : c ∉ ['(', '[', '\x7b', '\x60', '/', '<', '@', '#'] := by
    intro hmem
    exact hstops c (List.mem_append_left ['"', '\''] hmem) rfl
  have hread : Reads (if c = '"' ∨ c = '\'' then stringLiteral else numberLiteral)
      (c :: (digits ++ tail)) tail fun n =>
        ∃ span, n = .mk .literal span [(.value, .scalar (.num (Numeral.value? raw) raw))] := by
    rwa [if_neg hquote]
  exact reads_primary_literal hfresh (wordAt_of_isDigit hc) hbracket hread

/-! ## Strings -/

theorem encode_append_eq_cons
    (value : String) (quotes : QuoteStyle) (tail : List Char) :
    ∃ rest, (Quoted.encode value quotes).toList ++ tail = quotes.char :: rest ∧
      isFresh (quotes.char :: rest) = true := by
  rw [Quoted.encode, String.toList_ofList, Quoted.encodeChars]
  refine ⟨_, rfl, ?_⟩
  cases quotes <;> rfl

/-- A written string is read as its value wherever a string is read. -/
theorem reads_stringLiteral
    {value : String}
    (hvalue : Quoted.nulBeforeDigit value.toList = false)
    (quotes : QuoteStyle) :
    Reads stringLiteral ((Quoted.encode value quotes).toList ++ tail) tail fun n =>
      ∃ span, n = .mk .literal span [(.value, .scalar (.str value))] := by
  have hlength := Quoted.stringLength?_encodeChars quotes.char_eq value.toList tail
  have htext : (Quoted.encode value quotes).toList = Quoted.encodeChars quotes.char value.toList :=
    String.toList_ofList
  rw [← htext] at hlength
  obtain ⟨rest, hrest, hfresh⟩ := encode_append_eq_cons value quotes tail
  have hskip := skipped_of_isFresh hfresh
  rw [← hrest] at hskip
  refine (Reads.start hskip).bind fun origin _ => ?_
  have hlexeme := Reads.lexeme hlength
  rw [List.take_left, List.drop_left] at hlexeme
  refine hlexeme.bind fun found hfound => ?_
  rw [hfound, String.ofList_toList, (Quoted.decode_encode_eq_iff quotes).mpr hvalue]
  exact Reads.node fun span => ⟨span, rfl⟩

theorem reads_primary_string
    {value : String}
    (hvalue : Quoted.nulBeforeDigit value.toList = false)
    (quotes : QuoteStyle) :
    Reads (primary g lineEnds) ((Quoted.encode value quotes).toList ++ tail) tail fun o =>
      (∃ span, o.node = .mk .literal span [(.value, .scalar (.str value))]) ∧ o.form = .other := by
  have hread : Reads stringLiteral ((Quoted.encode value quotes).toList ++ tail) tail fun n =>
      ∃ span, n = .mk .literal span [(.value, .scalar (.str value))] :=
    reads_stringLiteral hvalue quotes
  obtain ⟨rest, hrest, hfresh⟩ := encode_append_eq_cons value quotes tail
  have hfacts : isNameChar quotes.char = false ∧ quotes.char ≠ '\\' ∧
      quotes.char ∉ ['(', '[', '\x7b', '\x60', '/', '<', '@', '#'] := by
    cases quotes <;> exact ⟨by decide, by decide, by decide⟩
  obtain ⟨hname, hescape, hbracket⟩ := hfacts
  rw [hrest] at hread ⊢
  have hliteral : Reads
      (if quotes.char = '"' ∨ quotes.char = '\'' then stringLiteral else numberLiteral)
      (quotes.char :: rest) tail fun n =>
        ∃ span, n = .mk .literal span [(.value, .scalar (.str value))] := by
    rwa [if_pos quotes.char_eq.symm]
  exact reads_primary_literal hfresh (wordAt_of_stop hfresh hname hescape) hbracket hliteral

/-! ## Groups -/

theorem markAt_open (rest : List Char) : markAt ('(' :: rest) = some ("(", rest) := by
  rw [markAt_of_isFresh rfl]
  rfl

theorem markAt_bracket (rest : List Char) : markAt ('[' :: rest) = some ("[", rest) := by
  rw [markAt_of_isFresh rfl]
  rfl

theorem reads_parenthesized
    {inner : List Char} {P : Node → Prop}
    (hinner : Reads (g.expressions false) (inner ++ ')' :: tail) (')' :: tail) P) :
    Reads g.parenthesized ('(' :: (inner ++ ')' :: tail)) tail P := by
  refine (Reads.mark (markAt_open _)).bind fun _ _ => ?_
  refine hinner.bind fun n hn => ?_
  refine (Reads.mark (markAt_closer (by decide) tail)).bind fun _ _ => ?_
  exact .of_pure hn

theorem reads_primary_group
    {inner : List Char} {P : Node → Prop}
    (htail : markOf tail ≠ "=>")
    (hinner : Reads (g.expressions false) (inner ++ ')' :: tail) (')' :: tail) P) :
    Reads (primary g lineEnds) ('(' :: (inner ++ ')' :: tail)) tail fun o =>
      P o.node ∧ o.form = .group := by
  refine (Reads.operandStart rfl).bind fun origin horigin => ?_
  have hword : origin.word? = none :=
    Cursor.word?_eq_none horigin (wordAt_of_stop rfl (by decide) (by decide))
  simp only [hword, horigin]
  refine (Reads.start (skipped_of_isFresh rfl)).bind fun origin _ => ?_
  refine Reads.eitherReading ?_
  refine (reads_parenthesized hinner).bind fun n hn => ?_
  refine .get fun cur hcur => ?_
  have harrow : (cur.nextMark == "=>") = false := by
    rw [Cursor.nextMark_eq, hcur]
    simpa using htail
  simp only [harrow, Bool.false_eq_true, if_false]
  exact .of_pure ⟨hn, rfl⟩

end Graft.Grammar
