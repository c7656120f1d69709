import Graft.Grammar.Lexeme
import Graft.Text.Quoted

/-!
# Quoted strings read back

A written literal is read as one lexeme, and decoding it gives the value that was written, unless
the value has a NUL in front of a digit: a NUL is written `\0` whatever follows it.
-/

namespace Graft

theorem QuoteStyle.char_eq (style : QuoteStyle) : style.char = '\'' ∨ style.char = '"' := by
  cases style
  · exact .inl rfl
  · exact .inr rfl

namespace Text.Quoted

open Grammar

/-- The text starts with a digit. -/
def digitFirst (text : List Char) : Bool := (text.head?.map Char.isDigit).getD false

/-- A NUL stands in front of a digit. -/
def nulBeforeDigit : List Char → Bool
  | [] => false
  | c :: rest => (c == '\x00' && digitFirst rest) || nulBeforeDigit rest

/-- A character is written as it stands, behind a backslash, or by its number; the reader takes
each of them back. -/
inductive Written (quote c : Char) : Prop
  | plain (hencode : encodeChar quote c = [c]) (hslash : c ≠ '\\') (hfeed : c ≠ '\n')
      (hreturn : c ≠ '\r') (hquote : c ≠ quote)
  | escaped (d : Char) (hencode : encodeChar quote c = ['\\', d])
      (hplain : d ∉ ['x', 'u', '\r', '?']) (hdigit : c.isDigit = false)
      (hdecode : ∀ rest, (c = '\x00' → digitFirst rest = false) →
        decodeFrom .escape (d :: rest) = c :: decodeFrom .plain rest)
  | numbered (d : Char) (hencode : encodeChar quote c = ['\\', 'u', '2', '0', '2', d])
      (hlast : d = '8' ∨ d = '9') (hdigit : c.isDigit = false)
      (hdecode : ∀ rest, decodeFrom .unicode ('2' :: '0' :: '2' :: d :: rest) =
        c :: decodeFrom .plain rest)

variable {quote : Char}

theorem written (hquote : quote = '\'' ∨ quote = '"') (c : Char) : Written quote c := by
  by_cases hspecial : c ∈ ['\\', '\n', '\r', '\t', '\x08', '\x0c', '\x0b']
  · simp only [List.mem_cons, List.not_mem_nil, or_false] at hspecial
    rcases hspecial with rfl | rfl | rfl | rfl | rfl | rfl | rfl
    all_goals exact .escaped _ rfl (by decide) rfl fun rest _ => rfl
  by_cases hnul : c = '\x00'
  · subst hnul
    refine .escaped '0' rfl (by decide) rfl fun rest hrest => ?_
    have hdigit : (rest.head?.map Char.isDigit).getD false = false := hrest rfl
    simp [decodeFrom, hdigit]
  by_cases hline : c = '\u2028'
  · subst hline
    exact .numbered '8' rfl (.inl rfl) rfl fun rest => rfl
  by_cases hparagraph : c = '\u2029'
  · subst hparagraph
    exact .numbered '9' rfl (.inr rfl) rfl fun rest => rfl
  by_cases hself : c = quote
  · subst hself
    rcases hquote with rfl | rfl
    all_goals exact .escaped _ rfl (by decide) rfl fun rest _ => rfl
  · simp only [List.mem_cons, List.not_mem_nil, or_false, not_or] at hspecial
    refine .plain ?_ hspecial.1 hspecial.2.1 hspecial.2.2.1 hself
    simp [encodeChar, hspecial, hnul, hline, hparagraph, hself]

/-! ## The lexeme -/

theorem stringTailLength?_skip (front rest : List Char) :
    stringTailLength? quote front.length (front ++ rest) =
      (stringTailLength? quote 0 rest).map (· + front.length) := by
  induction front with
  | nil => simp
  | cons c front ih =>
      rw [List.cons_append, List.length_cons, stringTailLength?, ih, Option.map_map]
      rfl

theorem escapeTailLength?_plain
    {d : Char} {rest : List Char}
    (hd : d ∉ ['x', 'u', '\r', '?']) :
    escapeTailLength? (d :: rest) = some 1 := by
  unfold escapeTailLength?
  split <;> simp_all

/-- Behind a backslash the lexer passes over the rest of an escape. -/
theorem stringTailLength?_escape
    (hquote : quote = '\'' ∨ quote = '"')
    {front rest : List Char}
    (hescape : escapeTailLength? (front ++ rest) = some front.length) :
    stringTailLength? quote 0 ('\\' :: (front ++ rest)) =
      (stringTailLength? quote 0 rest).map (· + (front.length + 1)) := by
  have hslash : '\\' ≠ quote := by rcases hquote with rfl | rfl <;> decide
  rw [stringTailLength?, if_neg hslash, if_neg (by decide), if_pos rfl, hescape]
  simp only
  rw [stringTailLength?_skip, Option.map_map]
  rfl

theorem stringTailLength?_encodeChar
    (hquote : quote = '\'' ∨ quote = '"')
    (c : Char) (rest : List Char) :
    stringTailLength? quote 0 (encodeChar quote c ++ rest) =
      (stringTailLength? quote 0 rest).map (· + (encodeChar quote c).length) := by
  cases written hquote c with
  | plain hencode hslash hfeed hreturn hself =>
      simp [hencode, stringTailLength?, hself, hfeed, hreturn, hslash]
  | escaped d hencode hplain hdigit hdecode =>
      rw [hencode]
      exact stringTailLength?_escape hquote (escapeTailLength?_plain hplain)
  | numbered d hencode hlast hdigit hdecode =>
      have hescape : escapeTailLength? (['u', '2', '0', '2', d] ++ rest) = some 5 := by
        rcases hlast with rfl | rfl <;> rfl
      rw [hencode]
      exact stringTailLength?_escape hquote hescape

theorem stringTailLength?_encoded (hquote : quote = '\'' ∨ quote = '"') (value rest : List Char) :
    stringTailLength? quote 0 (value.flatMap (encodeChar quote) ++ quote :: rest) =
      some ((value.flatMap (encodeChar quote)).length + 1) := by
  induction value with
  | nil => simp [stringTailLength?]
  | cons c value ih =>
      rw [List.flatMap_cons, List.append_assoc, stringTailLength?_encodeChar hquote, ih]
      simp [Nat.add_comm, Nat.add_left_comm]

/-- A written literal is one lexeme. -/
theorem stringLength?_encodeChars (hquote : quote = '\'' ∨ quote = '"') (value rest : List Char) :
    stringLength? (encodeChars quote value ++ rest) = some (encodeChars quote value).length := by
  have htail := stringTailLength?_encoded hquote value rest
  simp [encodeChars, stringLength?, hquote, htail]

/-! ## The value -/

/-- A digit is written as it stands, and nothing else is written with a digit in front. -/
theorem digitFirst_encoded (hquote : quote = '\'' ∨ quote = '"') (value : List Char) :
    digitFirst (value.flatMap (encodeChar quote)) = digitFirst value := by
  cases value with
  | nil => rfl
  | cons c value =>
      rw [List.flatMap_cons]
      cases written hquote c with
      | plain hencode =>
          rw [hencode]
          rfl
      | escaped d hencode hplain hdigit hdecode =>
          simp [hencode, digitFirst, hdigit]
      | numbered d hencode hlast hdigit hdecode =>
          simp [hencode, digitFirst, hdigit]

/-- The value with a zero in the place of each NUL in front of a digit. -/
def zeroed : List Char → List Char
  | [] => []
  | c :: rest => (if c = '\x00' ∧ digitFirst rest = true then '0' else c) :: zeroed rest

theorem zeroed_eq_self_iff {value : List Char} :
    zeroed value = value ↔ nulBeforeDigit value = false := by
  induction value with
  | nil => simp [zeroed, nulBeforeDigit]
  | cons c value ih =>
      rw [zeroed, List.cons.injEq, ih, nulBeforeDigit, Bool.or_eq_false_iff]
      refine and_congr_left fun _ => ?_
      by_cases hnul : c = '\x00'
      · subst hnul
        cases hdigit : digitFirst value <;> simp
      · simp [hnul]

theorem decodeFrom_encoded (hquote : quote = '\'' ∨ quote = '"') (value : List Char) :
    decodeFrom .plain (value.flatMap (encodeChar quote)) = zeroed value := by
  induction value with
  | nil => rfl
  | cons c value ih =>
      rw [List.flatMap_cons, zeroed]
      by_cases hnul : c = '\x00' ∧ digitFirst value = true
      · obtain ⟨rfl, hdigit⟩ := hnul
        rw [if_pos ⟨rfl, hdigit⟩]
        rw [← digitFirst_encoded hquote, digitFirst] at hdigit
        have hencode : encodeChar quote '\x00' = ['\\', '0'] := rfl
        simp [hencode, decodeFrom, hdigit, ih]
      rw [if_neg hnul]
      cases written hquote c with
      | plain hencode hslash =>
          rw [hencode, List.singleton_append, decodeFrom, if_neg hslash, ih]
      | escaped d hencode hplain hdigit hdecode =>
          have hrest : c = '\x00' → digitFirst (value.flatMap (encodeChar quote)) = false := by
            intro hc
            rw [digitFirst_encoded hquote]
            exact Bool.eq_false_iff.mpr fun hdigit => hnul ⟨hc, hdigit⟩
          rw [hencode, List.cons_append, decodeFrom, if_pos rfl, List.singleton_append,
            hdecode _ hrest, ih]
      | numbered d hencode hlast hdigit hdecode =>
          have hescape := hdecode (value.flatMap (encodeChar quote))
          rw [ih] at hescape
          rw [hencode]
          exact hescape

/-- Reading a written literal gives its value back exactly if the value has no NUL in front of a
digit. -/
theorem decode_encode_eq_iff (style : QuoteStyle) {value : String} :
    decode (encode value style) = value ↔ nulBeforeDigit value.toList = false := by
  have hinner : ((encode value style).toList.drop 1).dropLast =
      value.toList.flatMap (encodeChar style.char) := by
    simp [encode, encodeChars]
  rw [decode, hinner, decodeFrom_encoded style.char_eq, ← String.toList_inj, String.toList_ofList,
    zeroed_eq_self_iff]

end Text.Quoted
end Graft
