import Graft.Proofs.Digit
import Graft.Proofs.Reprint.Quoted

/-!
# The value of a string literal

The language gives a literal a value in UTF-16 code units, one element of the literal after the
other.  Decoding works on characters.  The two agree on every literal whose value is well formed,
with two exceptions: an escape that gives half of a surrogate pair is decoded on its own, and a
line continuation by a line or paragraph separator leaves the separator in the string.
-/

namespace Graft

/-! ## Code units -/

namespace Text.Utf16

/-- One code unit, or a surrogate pair. -/
def ofCodePoint (n : Nat) : List UInt16 :=
  if n < 0x10000 then [.ofNat n]
  else [.ofNat (0xd800 + (n - 0x10000) / 0x400), .ofNat (0xdc00 + (n - 0x10000) % 0x400)]

def ofChars (cs : List Char) : List UInt16 := cs.flatMap fun c => ofCodePoint c.toNat

/-- Half of a surrogate pair, which is no character. -/
def IsSurrogate (n : Nat) : Prop := 0xd800 ≤ n ∧ n ≤ 0xdfff

instance (n : Nat) : Decidable (IsSurrogate n) := inferInstanceAs (Decidable (_ ∧ _))

theorem isValidChar_iff {n : Nat} (hn : n ≤ 0x10ffff) : n.isValidChar ↔ ¬ IsSurrogate n := by
  unfold Nat.isValidChar IsSurrogate
  omega

theorem not_isSurrogate_toNat (c : Char) : ¬ IsSurrogate c.toNat := by
  have hvalid : c.toNat.isValidChar := c.valid
  unfold Nat.isValidChar at hvalid
  unfold IsSurrogate
  omega

theorem toNat_le (c : Char) : c.toNat ≤ 0x10ffff := by
  have hvalid : c.toNat.isValidChar := c.valid
  unfold Nat.isValidChar at hvalid
  omega

/-- The code units of a character tell where those of the next one begin. -/
theorem ofCodePoint_append_inj
    {c d : Char} {s t : List UInt16}
    (h : ofCodePoint c.toNat ++ s = ofCodePoint d.toNat ++ t) :
    c = d ∧ s = t := by
  have hc := not_isSurrogate_toNat c
  have hd := not_isSurrogate_toNat d
  have hcmax := toNat_le c
  have hdmax := toNat_le d
  unfold IsSurrogate at hc hd
  unfold ofCodePoint at h
  -- the first unit of a pair is a surrogate, and no character is one
  split at h <;> split at h
  all_goals
    simp only [List.cons_append, List.nil_append, List.cons.injEq, ← UInt16.toNat_inj,
      UInt16.toNat_ofNat'] at h
  · exact ⟨Char.toNat_inj.mp (by omega), h.2⟩
  · omega
  · omega
  · exact ⟨Char.toNat_inj.mp (by omega), h.2.2⟩

theorem ofCodePoint_ne_nil (n : Nat) : ofCodePoint n ≠ [] := by
  unfold ofCodePoint
  split <;> simp

theorem ofChars_injective {cs ds : List Char} (h : ofChars cs = ofChars ds) : cs = ds := by
  induction cs generalizing ds with
  | nil =>
      cases ds with
      | nil => rfl
      | cons d ds => simp [ofChars, ofCodePoint_ne_nil] at h
  | cons c cs ih =>
      cases ds with
      | nil => simp [ofChars, ofCodePoint_ne_nil] at h
      | cons d ds =>
          obtain ⟨rfl, hrest⟩ := ofCodePoint_append_inj h
          rw [ih hrest]

end Text.Utf16

namespace Text.Quoted

open Text.Utf16

/-! ## Elements of a literal -/

abbrev HexDigit := Digit 16

theorem hexNumber?_map_char {digits : List HexDigit} (hdigits : digits ≠ []) :
    hexNumber? (digits.map Digit.char) = some (Digit.number digits) := by
  rw [hexNumber?, if_neg (by simpa using hdigits)]
  refine Digit.foldlM_map_char (fun n d => ?_) digits 0
  have hd : Text.digit? d.char = some d.value.val := d.digit?_char (Nat.le_refl 16)
  rw [hd, Option.map_some]

/-- The character with a number; the replacement character where there is none. -/
def scalar (n : Nat) : Char := if n.isValidChar then Char.ofNat n else '\ufffd'

theorem codePoint_map_char {digits : List HexDigit} (hdigits : digits ≠ []) :
    codePoint (digits.map Digit.char) = scalar (Digit.number digits) := by
  rw [codePoint, hexNumber?_map_char hdigits]
  rfl

inductive CodeForm where
  /-- Two digits behind `\x`. -/
  | byte
  /-- Four digits behind `\u`. -/
  | unit
  /-- Any digits in braces behind `\u`. -/
  | braced
deriving DecidableEq, Repr

namespace CodeForm

def opening : CodeForm → List Char
  | byte => ['\\', 'x']
  | unit => ['\\', 'u']
  | braced => ['\\', 'u', '\x7b']

def closing : CodeForm → List Char
  | byte | unit => []
  | braced => ['\x7d']

def Admits : CodeForm → List HexDigit → Prop
  | byte, digits => digits.length = 2
  | unit, digits => digits.length = 4
  | braced, digits => digits ≠ [] ∧ Digit.number digits ≤ 0x10ffff

theorem Admits.ne_nil
    {form : CodeForm} {digits : List HexDigit}
    (h : form.Admits digits) :
    digits ≠ [] := by
  rintro rfl
  cases form
  · cases h
  · cases h
  · exact h.1 rfl

theorem Admits.number_le
    {form : CodeForm} {digits : List HexDigit}
    (h : form.Admits digits) :
    Digit.number digits ≤ 0x10ffff := by
  have hlt := Digit.number_lt digits
  cases form with
  | byte =>
      rw [show digits.length = 2 from h] at hlt
      omega
  | unit =>
      rw [show digits.length = 4 from h] at hlt
      omega
  | braced => exact h.2

end CodeForm

inductive LineEnd where
  | feed
  | carriage
  | carriageFeed
  | lineSeparator
  | paragraphSeparator
deriving DecidableEq, Repr

def LineEnd.text : LineEnd → List Char
  | feed => ['\n']
  | carriage => ['\r']
  | carriageFeed => ['\r', '\n']
  | lineSeparator => ['\u2028']
  | paragraphSeparator => ['\u2029']

/-- The letters with a meaning behind a backslash. -/
def controls : List (Char × Char) :=
  [('b', '\x08'), ('f', '\x0c'), ('n', '\n'), ('r', '\r'), ('t', '\t'), ('v', '\x0b')]

/-- Behind a backslash the character stands for itself. -/
def EscapesItself (c : Char) : Prop :=
  c ∉ ['b', 'f', 'n', 'r', 't', 'v', 'x', 'u', '\n', '\r', '\u2028', '\u2029'] ∧
    c.isDigit = false

/-- The elements a literal in these quotes is made of. -/
inductive Element (quote : Char) where
  | source (c : Char) (h : c ∉ [quote, '\\', '\n', '\r'])
  | control (letter value : Char) (h : (letter, value) ∈ controls)
  | itself (c : Char) (h : EscapesItself c)
  | nul
  | code (form : CodeForm) (digits : List HexDigit) (h : form.Admits digits)
  | continuation (lineEnd : LineEnd)

namespace Element

variable {quote : Char}

def text : Element quote → List Char
  | source c _ => [c]
  | control letter _ _ => ['\\', letter]
  | itself c _ => ['\\', c]
  | nul => ['\\', '0']
  | code form digits _ => form.opening ++ digits.map Digit.char ++ form.closing
  | continuation lineEnd => '\\' :: lineEnd.text

/-- The value that the language gives an element. -/
def units : Element quote → List UInt16
  | source c _ | itself c _ => ofCodePoint c.toNat
  | control _ value _ => ofCodePoint value.toNat
  | nul => [0]
  | code _ digits _ => ofCodePoint (Digit.number digits)
  | continuation _ => []

/-- What decoding makes of an element. -/
def decoded : Element quote → List Char
  | source c _ | itself c _ => [c]
  | control _ value _ => [value]
  | nul => ['\x00']
  | code _ digits _ => [scalar (Digit.number digits)]
  | continuation .lineSeparator => ['\u2028']
  | continuation .paragraphSeparator => ['\u2029']
  | continuation _ => []

/-- The element is neither half of a surrogate pair, written by its number, nor a line
continuation by a separator. -/
def IsWhole : Element quote → Prop
  | code _ digits _ => ¬ IsSurrogate (Digit.number digits)
  | continuation lineEnd => lineEnd ≠ .lineSeparator ∧ lineEnd ≠ .paragraphSeparator
  | _ => True

instance : DecidablePred (@IsWhole quote)
  | code _ digits _ => inferInstanceAs (Decidable (¬ IsSurrogate (Digit.number digits)))
  | continuation _ => inferInstanceAs (Decidable (_ ∧ _))
  | source .. | control .. | itself .. | nul => isTrue trivial

end Element

/-- No digit follows `\0`. -/
def NulEnds {quote : Char} : List (Element quote) → Prop
  | [] => True
  | e :: rest => (e = .nul → digitFirst (rest.flatMap Element.text) = false) ∧ NulEnds rest

/-- A string literal of the language, without octal escapes. -/
structure Literal where
  style : QuoteStyle
  elements : List (Element style.char)
  nulEnds : NulEnds elements

namespace Literal

def text (l : Literal) : String :=
  String.ofList (l.style.char :: l.elements.flatMap Element.text ++ [l.style.char])

def units (l : Literal) : List UInt16 := l.elements.flatMap Element.units

end Literal

/-! ## Reading elements -/

theorem decodeFrom_hex
    (digits : List Char)
    {cs : List Char}
    (hcs : cs ≠ [])
    (rest : List Char) :
    decodeFrom (.hex cs.length digits) (cs ++ rest) =
      codePoint (digits ++ cs) :: decodeFrom .plain rest := by
  induction cs generalizing digits with
  | nil => exact absurd rfl hcs
  | cons c cs ih =>
      cases cs with
      | nil => simp [decodeFrom]
      | cons d cs =>
          have hlength : ¬ (c :: d :: cs).length ≤ 1 := by simp
          rw [List.cons_append, decodeFrom, if_neg hlength]
          simpa using ih (digits ++ [c]) (by simp)

theorem decodeFrom_braced
    (digits : List Char)
    {cs : List Char}
    (hcs : '\x7d' ∉ cs)
    (rest : List Char) :
    decodeFrom (.braced digits) (cs ++ '\x7d' :: rest) =
      codePoint (digits ++ cs) :: decodeFrom .plain rest := by
  induction cs generalizing digits with
  | nil => simp [decodeFrom]
  | cons c cs ih =>
      obtain ⟨hc, hcs⟩ := List.ne_and_not_mem_of_not_mem_cons hcs
      rw [List.cons_append, decodeFrom, if_neg (Ne.symm hc), ih _ hcs]
      simp

theorem decodeFrom_code
    {form : CodeForm} {digits : List HexDigit}
    (h : form.Admits digits)
    (rest : List Char) :
    decodeFrom .plain (form.opening ++ digits.map Digit.char ++ form.closing ++ rest) =
      scalar (Digit.number digits) :: decodeFrom .plain rest := by
  rw [← codePoint_map_char h.ne_nil]
  have hdigits : digits.map Digit.char ≠ [] := by simpa using h.ne_nil
  cases form with
  | byte =>
      have hlength : (digits.map Digit.char).length = 2 := by rw [List.length_map]; exact h
      have hread := decodeFrom_hex [] hdigits rest
      rw [hlength] at hread
      simpa [CodeForm.opening, CodeForm.closing, decodeFrom] using hread
  | unit =>
      obtain ⟨d, digits, rfl⟩ := List.exists_cons_of_ne_nil h.ne_nil
      have hlength : (digits.map Digit.char).length = 3 := by
        rw [List.length_map]
        exact Nat.succ.inj h
      have hread := decodeFrom_hex [d.char] (List.ne_nil_of_length_eq_add_one hlength) rest
      rw [hlength] at hread
      have hbrace : d.char ≠ '\x7b' := d.char_ne (Nat.le_refl 16) rfl
      simpa [CodeForm.opening, CodeForm.closing, decodeFrom, hbrace] using hread
  | braced =>
      have hbrace : '\x7d' ∉ digits.map Digit.char := by
        rintro hmem
        obtain ⟨d, -, hd⟩ := List.mem_map.mp hmem
        exact d.char_ne (Nat.le_refl 16) rfl hd
      simpa [CodeForm.opening, CodeForm.closing, decodeFrom] using
        decodeFrom_braced [] hbrace rest

variable {quote : Char}

/-- One element is read without a look at the others, but for the digit behind `\0` and the line
feed behind a carriage return. -/
theorem Element.decodeFrom_text
    (e : Element quote)
    {rest : List Char}
    (hnul : e = .nul → digitFirst rest = false) (hfeed : rest.head? ≠ some '\n') :
    decodeFrom .plain (e.text ++ rest) = e.decoded ++ decodeFrom .plain rest := by
  cases e with
  | source c h =>
      have hslash : c ≠ '\\' := fun heq => h (by simp [heq])
      simp [text, decoded, decodeFrom, hslash]
  | control letter value h =>
      simp only [controls, List.mem_cons, List.not_mem_nil, or_false, Prod.mk.injEq] at h
      rcases h with ⟨rfl, rfl⟩ | ⟨rfl, rfl⟩ | ⟨rfl, rfl⟩ | ⟨rfl, rfl⟩ | ⟨rfl, rfl⟩ | ⟨rfl, rfl⟩
      all_goals rfl
  | itself c h =>
      have hzero : c ≠ '0' := by
        rintro rfl
        exact absurd h.2 (by decide)
      have hletters := h.1
      simp only [List.mem_cons, List.not_mem_nil, or_false, not_or] at hletters
      simp [text, decoded, decodeFrom, hletters, hzero]
  | nul =>
      have hdigit : (rest.head?.map Char.isDigit).getD false = false := hnul rfl
      simp [text, decoded, decodeFrom, hdigit]
  | code form digits h => exact decodeFrom_code h rest
  | continuation lineEnd =>
      cases lineEnd with
      | carriage =>
          -- a line feed behind it would belong to the same line end
          cases rest with
          | nil => rfl
          | cons c rest =>
              have hc : c ≠ '\n' := fun heq => hfeed (by simp [heq])
              simp [text, LineEnd.text, decoded, decodeFrom, hc]
      | feed | carriageFeed | lineSeparator | paragraphSeparator => rfl

theorem Element.head?_text_append (e : Element quote) (rest : List Char) :
    (e.text ++ rest).head? ≠ some '\n' := by
  cases e with
  | source c h =>
      have hfeed : c ≠ '\n' := fun heq => h (by simp [heq])
      simpa [text] using hfeed
  | code form digits h => cases form <;> simp [text, CodeForm.opening]
  | control | itself | nul | continuation => simp [text]

theorem decodeFrom_elements {elements : List (Element quote)} (hnul : NulEnds elements) :
    decodeFrom .plain (elements.flatMap Element.text) = elements.flatMap Element.decoded := by
  induction elements with
  | nil => rfl
  | cons e rest ih =>
      have hfeed : (rest.flatMap Element.text).head? ≠ some '\n' := by
        cases rest with
        | nil => simp
        | cons next rest => exact next.head?_text_append _
      rw [List.flatMap_cons, List.flatMap_cons, e.decodeFrom_text hnul.1 hfeed, ih hnul.2]

theorem Literal.decode_text (l : Literal) :
    decode l.text = String.ofList (l.elements.flatMap Element.decoded) := by
  rw [← decodeFrom_elements l.nulEnds]
  simp [decode, Literal.text]

/-! ## Values -/

theorem toNat_scalar {n : Nat} (hn : n ≤ 0x10ffff) :
    (scalar n).toNat = if IsSurrogate n then 0xfffd else n := by
  unfold scalar
  by_cases hsurrogate : IsSurrogate n
  · rw [if_neg (by simpa [isValidChar_iff hn] using hsurrogate), if_pos hsurrogate]
    rfl
  · have hvalid := (isValidChar_iff hn).mpr hsurrogate
    rw [if_pos hvalid, if_neg hsurrogate, Char.ofNat, dif_pos hvalid]
    rfl

/-- A number is decoded to its own units, unless it is half of a surrogate pair. -/
theorem ofCodePoint_scalar_eq_iff {n : Nat} (hn : n ≤ 0x10ffff) :
    ofCodePoint (scalar n).toNat = ofCodePoint n ↔ ¬ IsSurrogate n := by
  rw [toNat_scalar hn]
  split
  next hsurrogate =>
    refine iff_of_false (fun heq => ?_) (not_not_intro hsurrogate)
    have hlt := hsurrogate.2
    rw [ofCodePoint, ofCodePoint, if_pos (by decide), if_pos (by omega), List.singleton_inj,
      ← UInt16.toNat_inj, UInt16.toNat_ofNat', UInt16.toNat_ofNat'] at heq
    omega
  next hsurrogate => simp [hsurrogate]

theorem length_ofCodePoint_scalar {n : Nat} (hn : n ≤ 0x10ffff) :
    (ofCodePoint n).length ≤ (ofCodePoint (scalar n).toNat).length := by
  rw [toNat_scalar hn]
  split
  next hsurrogate =>
    have hlt : n < 0x10000 := by
      have := hsurrogate.2
      omega
    simp [ofCodePoint, hlt]
  next => exact Nat.le_refl _

/-- An element is decoded to its value exactly if it is whole, and never to fewer units. -/
theorem Element.ofChars_decoded (e : Element quote) :
    (ofChars e.decoded = e.units ↔ e.IsWhole) ∧ e.units.length ≤ (ofChars e.decoded).length := by
  cases e with
  | code form digits h =>
      have hmax := h.number_le
      simpa [ofChars, decoded, units, IsWhole] using
        And.intro (ofCodePoint_scalar_eq_iff hmax) (length_ofCodePoint_scalar hmax)
  | continuation lineEnd =>
      cases lineEnd <;> simp [ofChars, decoded, units, IsWhole, ofCodePoint]
  | nul => simp [ofChars, decoded, units, IsWhole, ofCodePoint]
  | source | control | itself => simp [ofChars, decoded, units, IsWhole]

section Pieces

variable {α β : Type} {f g : α → List β} {as : List α}

theorem length_flatMap_le (hlength : ∀ a, (g a).length ≤ (f a).length) :
    (as.flatMap g).length ≤ (as.flatMap f).length := by
  induction as with
  | nil => exact Nat.le_refl _
  | cons a as ih =>
      simp only [List.flatMap_cons, List.length_append]
      exact Nat.add_le_add (hlength a) ih

/-- Two texts made of pieces agree only if all pieces do, when no piece of the first is shorter. -/
theorem flatMap_eq_flatMap_iff (hlength : ∀ a, (g a).length ≤ (f a).length) :
    as.flatMap f = as.flatMap g ↔ ∀ a ∈ as, f a = g a := by
  induction as with
  | nil => simp
  | cons a as ih =>
      rw [List.flatMap_cons, List.flatMap_cons, List.forall_mem_cons, ← ih]
      constructor
      · intro heq
        have hrest : (as.flatMap g).length ≤ (as.flatMap f).length := length_flatMap_le hlength
        have htotal := congrArg List.length heq
        simp only [List.length_append] at htotal
        have ha := hlength a
        exact List.append_inj heq (by omega)
      · rintro ⟨ha, hrest⟩
        rw [ha, hrest]

end Pieces

/-- A literal whose value is the well-formed encoding of a string is decoded to that string exactly
if each of its elements is whole. -/
theorem Literal.decode_text_eq_iff
    (l : Literal)
    {value : String}
    (hvalue : ofChars value.toList = l.units) :
    decode l.text = value ↔ ∀ e ∈ l.elements, e.IsWhole := by
  have hdecoded : ofChars (l.elements.flatMap Element.decoded) =
      l.elements.flatMap fun e => ofChars e.decoded := List.flatMap_assoc
  have hpieces : ofChars (l.elements.flatMap Element.decoded) = l.units ↔
      ∀ e ∈ l.elements, e.IsWhole := by
    -- no element is decoded to fewer units than it has, so the units agree element by element
    rw [hdecoded, Literal.units, flatMap_eq_flatMap_iff fun e => e.ofChars_decoded.2]
    exact forall₂_congr fun e _ => e.ofChars_decoded.1
  rw [l.decode_text, ← hpieces, ← hvalue]
  constructor
  · rintro rfl
    rw [String.toList_ofList]
  · intro heq
    rw [ofChars_injective heq, String.ofList_toList]

/-- An emoji written by its number in braces, and by the two halves of its surrogate pair. -/
theorem Literal.decode_text_eq_iff_emoji :
    (∃ l : Literal, l.text = "'\\u\x7b1f600\x7d'" ∧ ofChars "😀".toList = l.units ∧
      decode l.text = "😀") ∧
    ∃ l : Literal, l.text = "'\\ud83d\\ude00'" ∧ ofChars "😀".toList = l.units ∧
      decode l.text ≠ "😀" := by
  constructor
  · exact ⟨⟨.single, [.code .braced [⟨1, false⟩, ⟨15, false⟩, ⟨6, false⟩, ⟨0, false⟩, ⟨0, false⟩]
      ⟨by decide, by decide⟩], ⟨nofun, trivial⟩⟩, by decide, by decide,
      (Literal.decode_text_eq_iff _ (by decide)).mpr (by decide)⟩
  · exact ⟨⟨.single, [.code .unit [⟨13, false⟩, ⟨8, false⟩, ⟨3, false⟩, ⟨13, false⟩] rfl,
      .code .unit [⟨13, false⟩, ⟨14, false⟩, ⟨0, false⟩, ⟨0, false⟩] rfl], ⟨nofun, nofun, trivial⟩⟩,
      by decide, by decide,
      fun heq => absurd ((Literal.decode_text_eq_iff _ (by decide)).mp heq) (by decide)⟩

end Text.Quoted
end Graft
