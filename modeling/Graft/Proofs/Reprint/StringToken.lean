import Graft.Proofs.Reprint.Layout
import Graft.Proofs.Reprint.Quoted

/-!
# Written strings are closed tokens

A string token goes from its opening quote to the first quote that no backslash takes with it: a
backslash takes the next character, whatever that is.  The literal written for a value is one such
token, whatever text follows it, so no part of the value is read as code and no code as a part of
the value.  It lies on one line and holds no NUL.
-/

namespace Graft

namespace Text.Quoted

/-- The characters that end a line, and NUL. -/
def barred : List Char := ['\n', '\r', '\u2028', '\u2029', '\x00']

/-- The rest of a string token up to and including its closing quote, and the text behind it. -/
def closeToken? (quote : Char) : (escaped : Bool) → List Char → Option (List Char × List Char)
  | _, [] => none
  | true, c :: rest => (closeToken? quote false rest).map (Prod.map (c :: ·) id)
  | false, c :: rest =>
    if c = quote then some ([c], rest)
    else (closeToken? quote (c == '\\') rest).map (Prod.map (c :: ·) id)

/-- A string token at the start of a text, and the text behind it. -/
def stringToken? : List Char → Option (List Char × List Char)
  | [] => none
  | c :: rest =>
    if c = '\'' ∨ c = '"' then (closeToken? c false rest).map (Prod.map (c :: ·) id) else none

variable {quote : Char}

/-! ## One character -/

theorem all_encodeChar_not_barred (hquote : quote = '\'' ∨ quote = '"') (c : Char) :
    (encodeChar quote c).all (fun d => !barred.contains d) = true := by
  by_cases hspecial :
      c ∈ ['\\', '\n', '\r', '\t', '\x08', '\x0c', '\x0b', '\x00', '\u2028', '\u2029']
  · simp only [List.mem_cons, List.not_mem_nil, or_false] at hspecial
    rcases hspecial with rfl | rfl | rfl | rfl | rfl | rfl | rfl | rfl | rfl | rfl <;> rfl
  by_cases hself : c = quote
  · rcases hquote with rfl | rfl <;> rw [hself] <;> rfl
  · simp only [List.mem_cons, List.not_mem_nil, or_false, not_or] at hspecial
    simp [encodeChar, barred, hspecial, hself]

/-- Characters that neither close the token nor take another one with them. -/
theorem closeToken?_run
    {front : List Char}
    (hfront : ∀ c ∈ front, c ≠ quote ∧ c ≠ '\\')
    (rest : List Char) :
    closeToken? quote false (front ++ rest) =
      (closeToken? quote false rest).map (Prod.map (front ++ ·) id) := by
  induction front with
  | nil =>
      rw [List.nil_append]
      cases closeToken? quote false rest <;> rfl
  | cons c front ih =>
      obtain ⟨⟨hself, hslash⟩, hfront⟩ := List.forall_mem_cons.mp hfront
      rw [List.cons_append, closeToken?, if_neg hself, beq_false_of_ne hslash, ih hfront,
        Option.map_map]
      rfl

/-- A backslash with the character it takes, and characters behind them. -/
theorem closeToken?_escape
    (hquote : quote = '\'' ∨ quote = '"')
    (d : Char)
    {front : List Char}
    (hfront : ∀ c ∈ front, c ≠ quote ∧ c ≠ '\\')
    (rest : List Char) :
    closeToken? quote false (('\\' :: d :: front) ++ rest) =
      (closeToken? quote false rest).map (Prod.map (('\\' :: d :: front) ++ ·) id) := by
  have hslash : '\\' ≠ quote := by rcases hquote with rfl | rfl <;> decide
  rw [List.cons_append, List.cons_append, closeToken?, if_neg hslash, beq_self_eq_true,
    closeToken?, closeToken?_run hfront, Option.map_map, Option.map_map]
  rfl

/-- The characters of one written character are read together: the scan stands behind them as it
stood before them. -/
theorem closeToken?_encodeChar
    (hquote : quote = '\'' ∨ quote = '"')
    (c : Char) (rest : List Char) :
    closeToken? quote false (encodeChar quote c ++ rest) =
      (closeToken? quote false rest).map (Prod.map (encodeChar quote c ++ ·) id) := by
  cases written hquote c with
  | plain hencode hslash hfeed hreturn hself =>
      rw [hencode]
      exact closeToken?_run (List.forall_mem_singleton.mpr ⟨hself, hslash⟩) rest
  | escaped d hencode =>
      rw [hencode]
      exact closeToken?_escape hquote d (by simp) rest
  | numbered d hencode hlast =>
      rw [hencode]
      refine closeToken?_escape hquote 'u' ?_ rest
      rcases hquote with rfl | rfl <;> rcases hlast with rfl | rfl <;> simp

/-! ## Whole literals -/

theorem closeToken?_encoded (hquote : quote = '\'' ∨ quote = '"') (value rest : List Char) :
    closeToken? quote false (value.flatMap (encodeChar quote) ++ quote :: rest) =
      some (value.flatMap (encodeChar quote) ++ [quote], rest) := by
  induction value with
  | nil => simp [closeToken?]
  | cons c value ih =>
      rw [List.flatMap_cons, List.append_assoc, closeToken?_encodeChar hquote, ih]
      simp

theorem toList_encode (value : String) (style : QuoteStyle) :
    (encode value style).toList =
      style.char :: (value.toList.flatMap (encodeChar style.char) ++ [style.char]) := by
  simp [encode, encodeChars]

theorem stringToken?_encode (value : String) (style : QuoteStyle) (rest : List Char) :
    stringToken? ((encode value style).toList ++ rest) =
      some ((encode value style).toList, rest) := by
  have hclose := closeToken?_encoded style.char_eq value.toList rest
  rw [toList_encode, List.cons_append, stringToken?, if_pos style.char_eq, List.append_assoc,
    List.singleton_append, hclose]
  rfl

theorem not_mem_barred_of_mem_encode
    {value : String} {style : QuoteStyle} {c : Char}
    (hc : c ∈ (encode value style).toList) :
    c ∉ barred := by
  rw [toList_encode, List.mem_cons, List.mem_append, List.mem_singleton] at hc
  have hquote : style.char ∉ barred := by cases style <;> decide
  rcases hc with rfl | hc | rfl
  · exact hquote
  · obtain ⟨v, -, hwritten⟩ := List.mem_flatMap.mp hc
    have hall := List.all_eq_true.mp (all_encodeChar_not_barred style.char_eq v) c hwritten
    simpa using hall
  · exact hquote

end Text.Quoted

open Text.Quoted

/-- A literal with a string for its value prints as that string, quoted, whatever else it holds. -/
theorem Node.bare_of_string
    {n : Node} {value : String}
    (hkind : n.kind = .literal) (hvalue : n.scalar? .value = some (.str value))
    (style : Style) :
    (n.printed style).bare = Doc.ofText (encode value style.quotes) := by
  obtain ⟨kind, span, slots⟩ := n
  cases hkind
  change Doc.ofText (Parts.literal ⟨style, .mk .literal span slots, printedSlots style slots⟩) = _
  rw [Parts.literal, hvalue]

/-- What is written for a string, in either quotes, starts and ends with its quote, holds no end of
a line and no NUL, and is one token: the scan for the closing quote, and the reader of programs,
stop exactly at its last character, whatever follows.  So does the scan of a printed text at the
place of a string literal, with the text that is printed behind the literal left over. -/
theorem string_written_as_closed_token (value : String) (quotes : QuoteStyle) :
    (∃ inner, (encode value quotes).toList = quotes.char :: (inner ++ [quotes.char])) ∧
    (∀ c ∈ (encode value quotes).toList, c ∉ ['\n', '\r', '\u2028', '\u2029', '\x00']) ∧
    (∀ rest, stringToken? ((encode value quotes).toList ++ rest) =
      some ((encode value quotes).toList, rest)) ∧
    (∀ rest, Grammar.stringLength? ((encode value quotes).toList ++ rest) =
      some (encode value quotes).toList.length) ∧
    ∀ (style : Style) (n : Node), style.quotes = quotes → n.kind = .literal →
      n.scalar? .value = some (.str value) → ∀ before after : Doc,
        ∃ back, (Doc.render style (before ++ (n.printed style).bare ++ after)).toList =
            (before.render style).toList ++ back ∧
          stringToken? back = some ((encode value quotes).toList, (after.render style).toList) := by
  refine ⟨⟨_, toList_encode value quotes⟩, fun c => not_mem_barred_of_mem_encode,
    stringToken?_encode value quotes, fun rest => ?_, ?_⟩
  · simpa [encode] using stringLength?_encodeChars quotes.char_eq value.toList rest
  · rintro style n rfl hkind hvalue before after
    refine ⟨(encode value style.quotes).toList ++ (after.render style).toList, ?_,
      stringToken?_encode value style.quotes _⟩
    simp [Node.bare_of_string hkind hvalue, Doc.toList_render]

/-- A value with both quotes and a line end that ends in a backslash, as the argument of a call. -/
theorem string_written_as_closed_token_backslash :
    let literal : Node := .mk .literal {} [(.value, .scalar (.str "'\"\n\\"))]
    let text := encode "'\"\n\\" .single
    text = "'\\'\"\\n\\\\'" ∧ '\\' ∈ text.toList ∧
      '\\' ∉ ['\n', '\r', '\u2028', '\u2029', '\x00'] ∧
      ∃ back, (Doc.render {} (Doc.ofText "say(" ++ (literal.printed {}).bare ++
            Doc.ofText ");")).toList = (Doc.render {} (Doc.ofText "say(")).toList ++ back ∧
        stringToken? back = some (text.toList, (Doc.render {} (Doc.ofText ");")).toList) := by
  intro literal text
  obtain ⟨-, hbarred, -, -, hprinted⟩ := string_written_as_closed_token "'\"\n\\" .single
  have hmem : '\\' ∈ text.toList := by decide +kernel
  exact ⟨by decide +kernel, hmem, hbarred '\\' hmem, hprinted {} literal rfl rfl rfl _ _⟩

end Graft
