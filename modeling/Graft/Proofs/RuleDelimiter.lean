import Graft.Proofs.TextBytes
import Graft.Rule.Split
import Mathlib.Tactic.SplitIfs

/-!
# The delimiter of a rule

A scanner that goes over a text one character at a time is at each place in code, in quoted text or
in a comment.  The two halves of a rule are the texts in front of and behind the first `->` that
starts in code.  The search for it works otherwise: it counts bytes, passes over a whole quoted text
or comment at once, and behind a backslash it may come to a place inside a character.  It still ends
where the scanner says, and the text is never cut inside a character.
-/

namespace Graft.Rule

open Text

/-! ## The scanner -/

/-- A character that opens quoted text and closes it. -/
structure QuoteMark where
  char : Char
  isMark : char = '\'' ∨ char = '"' ∨ char = '\x60'
deriving DecidableEq, Repr

inductive ScanMode where
  | code
  /-- Code behind a slash, which may open a comment. -/
  | slash
  | quoted (quote : QuoteMark)
  /-- Quoted text behind a backslash. -/
  | escaped (quote : QuoteMark)
  | lineComment
  | blockComment
  /-- A block comment behind a star, which may close it. -/
  | star
deriving DecidableEq, Repr

namespace ScanMode

def inCode : ScanMode → Bool
  | code | slash => true
  | quoted _ | escaped _ | lineComment | blockComment | star => false

/-- The mode behind a character of code. -/
def behindCode (c : Char) : ScanMode :=
  if h : c = '\'' ∨ c = '"' ∨ c = '\x60' then quoted ⟨c, h⟩
  else if c = '/' then slash
  else code

def next : ScanMode → Char → ScanMode
  | code, c => behindCode c
  | slash, c => if c = '/' then lineComment else if c = '*' then blockComment else behindCode c
  | quoted quote, c =>
    if c = quote.char then code else if c = '\\' then escaped quote else quoted quote
  | escaped quote, _ => quoted quote
  | lineComment, c => if c = '\n' then code else lineComment
  | blockComment, c => if c = '*' then star else blockComment
  | star, c => if c = '/' then code else if c = '*' then star else blockComment

end ScanMode

/-- The scanner is in code behind the text. -/
def EndsInCode (text : String) : Prop :=
  (text.toList.foldl ScanMode.next .code).inCode = true

instance (text : String) : Decidable (EndsInCode text) := inferInstanceAs (Decidable (_ = true))

/-! ## Modes and extents -/

/-- How many of the following bytes the search passes over in a mode. -/
def ScanMode.pending : ScanMode → List UInt8 → Nat
  | code, _ => 0
  | slash, bs => commentExtent bs
  | quoted quote, bs => quotedExtent quote.char.toUInt8 bs
  | escaped _, [] => 0
  | escaped quote, _ :: bs => 1 + quotedExtent quote.char.toUInt8 bs
  | lineComment, bs => lineCommentExtent bs
  | blockComment, bs => blockCommentExtent bs
  | star, bs => if bs.head? = some '/'.toUInt8 then 1 else blockCommentExtent bs

theorem QuoteMark.isByte (quote : QuoteMark) : IsByte quote.char := by
  rcases quote.isMark with hchar | hchar | hchar <;> rw [hchar] <;> decide

theorem delimiterFrom_skip (front bs : List UInt8) (skip : Nat) :
    delimiterFrom (front.length + skip) (front ++ bs) =
      (delimiterFrom skip bs).map (· + front.length) := by
  induction front with
  | nil => simp
  | cons b front ih =>
      rw [List.length_cons, Nat.add_right_comm, List.cons_append, delimiterFrom, ih, Option.map_map]
      rfl

/-- A count of bytes that takes each high byte as one of them passes over all of them. -/
theorem extent_append_high
    {extent : List UInt8 → Nat}
    (hextent : ∀ b bs, IsHigh b → extent (b :: bs) = 1 + extent bs)
    {front : List UInt8}
    (hfront : ∀ b ∈ front, IsHigh b)
    (bs : List UInt8) :
    extent (front ++ bs) = front.length + extent bs := by
  induction front with
  | nil => simp
  | cons b front ih =>
      rw [List.cons_append, hextent b _ (hfront b (by simp)),
        ih fun other hother => hfront other (by simp [hother]), List.length_cons]
      omega

theorem quotedExtent_high
    (quote : QuoteMark)
    {b : UInt8}
    (bs : List UInt8)
    (hb : IsHigh b) :
    quotedExtent quote.char.toUInt8 (b :: bs) = 1 + quotedExtent quote.char.toUInt8 bs := by
  rw [quotedExtent.eq_def]
  simp only [if_neg (ne_of_isHigh hb quote.isByte),
    if_neg (ne_of_isHigh hb (by decide : IsByte '\\'))]

theorem lineCommentExtent_high {b : UInt8} (bs : List UInt8) (hb : IsHigh b) :
    lineCommentExtent (b :: bs) = 1 + lineCommentExtent bs := by
  rw [lineCommentExtent, if_neg (ne_of_isHigh hb (by decide))]

theorem blockCommentExtent_high {b : UInt8} (bs : List UInt8) (hb : IsHigh b) :
    blockCommentExtent (b :: bs) = 1 + blockCommentExtent bs := by
  rw [blockCommentExtent, if_neg fun hstar => ne_of_isHigh hb (by decide) hstar.1]

theorem extentAfter_high {b : UInt8} (bs : List UInt8) (hb : IsHigh b) : extentAfter b bs = 0 := by
  have hquote : isQuote b = false := by
    simp [isQuote, ne_of_isHigh hb (by decide : IsByte '\''),
      ne_of_isHigh hb (by decide : IsByte '"'), ne_of_isHigh hb (by decide : IsByte '\x60')]
  simp [extentAfter, hquote, ne_of_isHigh hb (by decide : IsByte '/')]

theorem delimiterFrom_high
    {front : List UInt8}
    (hfront : ∀ b ∈ front, IsHigh b)
    (bs : List UInt8) :
    delimiterFrom 0 (front ++ bs) = (delimiterFrom 0 bs).map (· + front.length) := by
  induction front with
  | nil => simp
  | cons b front ih =>
      have hb := hfront b (by simp)
      rw [List.cons_append, delimiterFrom,
        if_neg fun hdash => ne_of_isHigh hb (by decide) hdash.1, extentAfter_high _ hb,
        ih fun other hother => hfront other (by simp [hother]), Option.map_map]
      rfl

/-! ## One character -/

/-- In code the search looks at a character, and goes on in the mode behind it. -/
theorem delimiterFrom_code (c : Char) (cs : List Char) :
    delimiterFrom 0 (bytes (c :: cs)) =
      if c = '-' ∧ cs.head? = some '>' then some 0
      else (delimiterFrom ((ScanMode.behindCode c).pending (bytes cs)) (bytes cs)).map
        (· + c.utf8Size) := by
  by_cases hc : IsByte c
  · have hextent : extentAfter c.toUInt8 (bytes cs) =
        (ScanMode.behindCode c).pending (bytes cs) := by
      simp only [extentAfter, isQuote, ScanMode.behindCode, Bool.or_eq_true, decide_eq_true_eq,
        toUInt8_inj hc (by decide : IsByte '\''), toUInt8_inj hc (by decide : IsByte '"'),
        toUInt8_inj hc (by decide : IsByte '\x60'), toUInt8_inj hc (by decide : IsByte '/'),
        or_assoc]
      split_ifs <;> rfl
    rw [bytes_cons, encodeChar_of_isByte hc, List.singleton_append, delimiterFrom, hextent]
    simp only [toUInt8_inj hc (by decide : IsByte '-'), head?_bytes_iff (by decide : IsByte '>'),
      hc.utf8Size]
  · have hcode : ScanMode.behindCode c = .code := by
      rw [ScanMode.behindCode, dif_neg, if_neg (ne_of_not_isByte hc (by decide))]
      rintro (heq | heq | heq) <;> exact ne_of_not_isByte hc (by decide) heq
    rw [if_neg fun hdash => ne_of_not_isByte hc (by decide) hdash.1, hcode, bytes_cons,
      delimiterFrom_high (isHigh_of_mem_encodeChar hc), String.length_utf8EncodeChar]
    rfl

theorem extent_encodeChar
    {extent : List UInt8 → Nat}
    (hextent : ∀ b bs, IsHigh b → extent (b :: bs) = 1 + extent bs)
    {c : Char}
    (hc : ¬ IsByte c)
    (bs : List UInt8) :
    extent (String.utf8EncodeChar c ++ bs) = c.utf8Size + extent bs := by
  rw [extent_append_high hextent (isHigh_of_mem_encodeChar hc), String.length_utf8EncodeChar]

/-- Passing over a character in a mode leaves what is to be passed over behind it. -/
def ScanMode.Passes (m : ScanMode) (c : Char) (cs : List Char) : Prop :=
  m.pending (bytes (c :: cs)) = c.utf8Size + (m.next c).pending (bytes cs)

theorem passes_quoted (quote : QuoteMark) (c : Char) (cs : List Char) :
    (ScanMode.quoted quote).Passes c cs := by
  unfold ScanMode.Passes
  rw [bytes_cons]
  generalize bytes cs = bs
  by_cases hc : IsByte c
  · rw [encodeChar_of_isByte hc, List.singleton_append, hc.utf8Size]
    simp only [ScanMode.pending, ScanMode.next]
    rw [quotedExtent.eq_def]
    simp only [toUInt8_inj hc quote.isByte, toUInt8_inj hc (by decide : IsByte '\\')]
    split_ifs
    · rfl
    · cases bs with
      | nil => rfl
      | cons b bs => exact Nat.add_assoc 1 1 _
    · rfl
  · have hnext : (ScanMode.quoted quote).next c = .quoted quote := by
      rw [ScanMode.next, if_neg (ne_of_not_isByte hc quote.isByte),
        if_neg (ne_of_not_isByte hc (by decide))]
    rw [hnext]
    exact extent_encodeChar (fun b bs => quotedExtent_high quote bs) hc bs

theorem passes_escaped (quote : QuoteMark) (c : Char) (cs : List Char) :
    (ScanMode.escaped quote).Passes c cs := by
  unfold ScanMode.Passes
  rw [bytes_cons]
  by_cases hc : IsByte c
  · rw [encodeChar_of_isByte hc, hc.utf8Size]
    rfl
  · -- the backslash takes one byte along, and the others of the character close nothing
    have hhigh := isHigh_of_mem_encodeChar hc
    have hlength := String.length_utf8EncodeChar c
    obtain ⟨first, rest, hbytes⟩ := List.exists_cons_of_ne_nil (encodeChar_ne_nil c)
    rw [hbytes] at hhigh hlength ⊢
    rw [← hlength, List.length_cons, List.cons_append, ScanMode.pending,
      extent_append_high (fun b bs => quotedExtent_high quote bs)
        fun b hb => hhigh b (List.mem_cons_of_mem _ hb)]
    simp only [ScanMode.next, ScanMode.pending]
    omega

theorem passes_lineComment {c : Char} (hnewline : c ≠ '\n') (cs : List Char) :
    ScanMode.lineComment.Passes c cs := by
  unfold ScanMode.Passes
  rw [ScanMode.next, if_neg hnewline, bytes_cons]
  by_cases hc : IsByte c
  · rw [encodeChar_of_isByte hc, List.singleton_append, hc.utf8Size]
    simp only [ScanMode.pending]
    rw [lineCommentExtent, if_neg]
    rwa [toUInt8_inj hc (by decide)]
  · exact extent_encodeChar (fun b bs => lineCommentExtent_high bs) hc _

theorem passes_blockComment (c : Char) (cs : List Char) :
    ScanMode.blockComment.Passes c cs := by
  unfold ScanMode.Passes
  rw [bytes_cons]
  by_cases hc : IsByte c
  · rw [encodeChar_of_isByte hc, List.singleton_append, hc.utf8Size]
    simp only [ScanMode.pending, ScanMode.next]
    rw [blockCommentExtent]
    simp only [toUInt8_inj hc (by decide : IsByte '*')]
    by_cases hstar : c = '*'
    · simp only [hstar, true_and, if_true]
      split_ifs <;> rfl
    · simp only [hstar, false_and, if_false]
  · rw [ScanMode.next, if_neg (ne_of_not_isByte hc (by decide))]
    exact extent_encodeChar (fun b bs => blockCommentExtent_high bs) hc _

theorem passes_star (c : Char) (cs : List Char) : ScanMode.star.Passes c cs := by
  have hblock := passes_blockComment c cs
  unfold ScanMode.Passes at hblock ⊢
  have hpending : ScanMode.star.pending (bytes (c :: cs)) =
      if c = '/' then 1 else ScanMode.blockComment.pending (bytes (c :: cs)) := by
    simp only [ScanMode.pending, head?_bytes_iff (by decide : IsByte '/'), List.head?_cons,
      Option.some.injEq]
  rw [hpending]
  by_cases hslash : c = '/'
  · subst hslash
    rfl
  · simpa only [ScanMode.next, hslash, if_false] using hblock

theorem commentExtent_eq_zero
    {bs : List UInt8}
    (hline : bs.head? ≠ some '/'.toUInt8) (hblock : bs.head? ≠ some '*'.toUInt8) :
    commentExtent bs = 0 := by
  cases bs with
  | nil => rfl
  | cons b bs =>
      rw [List.head?_cons, Ne, Option.some.injEq] at hline hblock
      rw [commentExtent, if_neg hline, if_neg hblock]

/-- The search behind a mode meets the next character as the scanner does: the delimiter starts
there, or the search goes on behind it. -/
def ScanMode.Steps (m : ScanMode) (c : Char) (cs : List Char) : Prop :=
  delimiterFrom (m.pending (bytes (c :: cs))) (bytes (c :: cs)) =
    if m.inCode = true ∧ c = '-' ∧ cs.head? = some '>' then some 0
    else (delimiterFrom ((m.next c).pending (bytes cs)) (bytes cs)).map (· + c.utf8Size)

theorem ScanMode.Passes.steps
    {m : ScanMode} {c : Char} {cs : List Char}
    (hpasses : m.Passes c cs) (hdash : m.inCode = true → c ≠ '-') :
    m.Steps c cs := by
  unfold ScanMode.Passes at hpasses
  unfold ScanMode.Steps
  rw [if_neg fun hstarts => hdash hstarts.1 hstarts.2.1, hpasses, bytes_cons,
    ← String.length_utf8EncodeChar c, delimiterFrom_skip]

theorem ScanMode.steps_of_pending_eq_zero
    {m : ScanMode} {c : Char} {cs : List Char}
    (hpending : m.pending (bytes (c :: cs)) = 0)
    (hnext : m.next c = behindCode c)
    (hdash : c = '-' → m.inCode = true) :
    m.Steps c cs := by
  have hstarts : (m.inCode = true ∧ c = '-' ∧ cs.head? = some '>') ↔
      c = '-' ∧ cs.head? = some '>' :=
    and_iff_right_of_imp fun hstarts => hdash hstarts.1
  unfold ScanMode.Steps
  rw [hpending, hnext, delimiterFrom_code]
  simp only [hstarts]

theorem ScanMode.steps (m : ScanMode) (c : Char) (cs : List Char) : m.Steps c cs := by
  cases m with
  | code => exact steps_of_pending_eq_zero rfl rfl fun _ => rfl
  | slash =>
      -- the slash opens a comment, or it was one character of code like any other
      by_cases hline : c = '/'
      · subst hline
        have hpasses : slash.Passes '/' cs := rfl
        exact hpasses.steps fun _ => by decide
      by_cases hblock : c = '*'
      · subst hblock
        have hpasses : slash.Passes '*' cs := rfl
        exact hpasses.steps fun _ => by decide
      have hpending : slash.pending (bytes (c :: cs)) = 0 := by
        refine commentExtent_eq_zero ?_ ?_
        · simpa only [ne_eq, head?_bytes_iff (by decide : IsByte '/'), List.head?_cons,
            Option.some.injEq] using hline
        · simpa only [ne_eq, head?_bytes_iff (by decide : IsByte '*'), List.head?_cons,
            Option.some.injEq] using hblock
      exact steps_of_pending_eq_zero hpending (by simp [next, hline, hblock]) fun _ => rfl
  | quoted quote => exact (passes_quoted quote c cs).steps nofun
  | escaped quote => exact (passes_escaped quote c cs).steps nofun
  | lineComment =>
      -- the newline is not part of the comment
      by_cases hnewline : c = '\n'
      · subst hnewline
        exact steps_of_pending_eq_zero rfl rfl nofun
      · exact (passes_lineComment hnewline cs).steps nofun
  | blockComment => exact (passes_blockComment c cs).steps nofun
  | star => exact (passes_star c cs).steps nofun

/-! ## The first delimiter -/

/-- A delimiter stands in code behind `left`, where the scanner comes to the text in mode `m`. -/
def ScanMode.Delimits (m : ScanMode) (cs left : List Char) : Prop :=
  (∃ right, cs = left ++ '-' :: '>' :: right) ∧ (left.foldl next m).inCode = true

theorem ScanMode.not_delimits_nil (m : ScanMode) (left : List Char) : ¬ m.Delimits [] left := by
  rintro ⟨⟨right, hnil⟩, -⟩
  simp at hnil

theorem ScanMode.delimits_nil_iff {m : ScanMode} {c : Char} {cs : List Char} :
    m.Delimits (c :: cs) [] ↔ m.inCode = true ∧ c = '-' ∧ cs.head? = some '>' := by
  simp only [Delimits, List.nil_append, List.cons.injEq, List.foldl_nil, exists_and_left,
    List.head?_eq_some_iff]
  exact and_comm

theorem ScanMode.delimits_cons_iff
    {m : ScanMode} {c first : Char} {cs left : List Char} :
    m.Delimits (c :: cs) (first :: left) ↔ first = c ∧ (m.next c).Delimits cs left := by
  simp only [Delimits, List.cons_append, List.cons.injEq, List.foldl_cons, exists_and_left]
  constructor
  · rintro ⟨⟨rfl, hright⟩, hcode⟩
    exact ⟨rfl, hright, hcode⟩
  · rintro ⟨rfl, hright, hcode⟩
    exact ⟨⟨rfl, hright⟩, hcode⟩

/-- The search ends at the first delimiter in code, or there is none. -/
theorem delimiterFrom_pending (m : ScanMode) (cs : List Char) :
    (∃ left, m.Delimits cs left ∧ (∀ other, m.Delimits cs other → left.length ≤ other.length) ∧
      delimiterFrom (m.pending (bytes cs)) (bytes cs) = some (bytes left).length) ∨
    ((∀ left, ¬ m.Delimits cs left) ∧ delimiterFrom (m.pending (bytes cs)) (bytes cs) = none) := by
  -- one character changes the mode, so the statement is about all modes
  induction cs generalizing m with
  | nil => exact .inr ⟨m.not_delimits_nil, by simp [delimiterFrom]⟩
  | cons c cs ih =>
      rw [m.steps c cs]
      by_cases hhere : m.Delimits (c :: cs) []
      · refine .inl ⟨[], hhere, fun _ _ => Nat.zero_le _, ?_⟩
        rw [if_pos (ScanMode.delimits_nil_iff.mp hhere)]
        rfl
      · rw [if_neg fun hstarts => hhere (ScanMode.delimits_nil_iff.mpr hstarts)]
        rcases ih (m.next c) with ⟨left, hleft, hfirst, hfound⟩ | ⟨hnone, hfound⟩
        · refine .inl ⟨c :: left, ScanMode.delimits_cons_iff.mpr ⟨rfl, hleft⟩, ?_, ?_⟩
          · intro other hother
            cases other with
            | nil => exact absurd hother hhere
            | cons first other =>
                have hother := (ScanMode.delimits_cons_iff.mp hother).2
                exact Nat.succ_le_succ (hfirst other hother)
          · rw [hfound, length_bytes_cons, Option.map_some, Nat.add_comm]
        · refine .inr ⟨?_, by rw [hfound, Option.map_none]⟩
          intro left hleft
          cases left with
          | nil => exact hhere hleft
          | cons first left => exact hnone left (ScanMode.delimits_cons_iff.mp hleft).2

/-- The text is `left`, a delimiter that stands in code, and `right`. -/
def DelimiterBetween (text left right : String) : Prop :=
  text = left ++ "->" ++ right ∧ EndsInCode left

theorem toList_delimited (left right : String) :
    (left ++ "->" ++ right).toList = left.toList ++ '-' :: '>' :: right.toList := by
  simp

theorem delimits_toList_iff {text : String} {left : List Char} :
    ScanMode.code.Delimits text.toList left ↔
      ∃ right, DelimiterBetween text (String.ofList left) right := by
  simp only [ScanMode.Delimits, DelimiterBetween, EndsInCode, String.toList_ofList,
    exists_and_right]
  refine and_congr_left fun _ => ⟨?_, ?_⟩
  · rintro ⟨right, htext⟩
    refine ⟨String.ofList right, String.toList_inj.mp ?_⟩
    rw [toList_delimited, htext, String.toList_ofList, String.toList_ofList]
  · rintro ⟨right, rfl⟩
    exact ⟨right.toList, by rw [toList_delimited, String.toList_ofList]⟩

theorem split?_of_delimiter?
    {left right : String}
    (hfound : delimiter? (left ++ "->" ++ right) = some (bytes left.toList).length) :
    split? (left ++ "->" ++ right) = some (left, right) := by
  have hleft := cut?_bytes left.toList ('-' :: '>' :: right.toList)
  have hright := cut?_bytes (left.toList ++ ['-', '>']) right.toList
  have hlength : (bytes (left.toList ++ ['-', '>'])).length = (bytes left.toList).length + 2 := by
    rw [bytes_append, List.length_append]
    rfl
  rw [hlength, List.append_assoc] at hright
  simp only [split?, hfound, toList_delimited, Option.bind_eq_bind, Option.bind_some, hleft]
  rw [show '-' :: '>' :: right.toList = ['-', '>'] ++ right.toList from rfl, hright]
  simp

/-- Two delimiters at one place divide the text in the same way. -/
theorem DelimiterBetween.unique
    {text left right left' right' : String}
    (h : DelimiterBetween text left right)
    (h' : DelimiterBetween text left' right')
    (hlength : left.length = left'.length) :
    left = left' ∧ right = right' := by
  have hlists : left.toList ++ '-' :: '>' :: right.toList =
      left'.toList ++ '-' :: '>' :: right'.toList := by
    rw [← toList_delimited, ← toList_delimited, ← h.1, ← h'.1]
  obtain ⟨hleft, hrest⟩ := List.append_inj hlists (by simpa [String.length_toList] using hlength)
  simp only [List.cons.injEq, true_and] at hrest
  exact ⟨String.toList_inj.mp hleft, String.toList_inj.mp hrest⟩

/-- A rule divides at its first delimiter, or it has none. -/
theorem split?_cases (text : String) :
    (∃ left right, DelimiterBetween text left right ∧
      (∀ left' right', DelimiterBetween text left' right' → left.length ≤ left'.length) ∧
      delimiter? text = some (bytes left.toList).length ∧ split? text = some (left, right)) ∨
    ((∀ left right, ¬ DelimiterBetween text left right) ∧ delimiter? text = none ∧
      split? text = none) := by
  rcases delimiterFrom_pending .code text.toList with
    ⟨left, hleft, hfirst, hfound⟩ | ⟨hnone, hfound⟩
  · obtain ⟨right, hbetween⟩ := delimits_toList_iff.mp hleft
    have hdelimiter : delimiter? text = some (bytes (String.ofList left).toList).length := by
      rw [String.toList_ofList]
      exact hfound
    refine .inl ⟨String.ofList left, right, hbetween, ?_, hdelimiter, ?_⟩
    · intro left' right' hbetween'
      have hle := hfirst left'.toList
        (delimits_toList_iff.mpr ⟨right', by rwa [String.ofList_toList]⟩)
      rwa [String.length_toList, ← String.length_ofList] at hle
    · rw [hbetween.1] at hdelimiter ⊢
      exact split?_of_delimiter? hdelimiter
  · have hdelimiter : delimiter? text = none := hfound
    refine .inr ⟨?_, hdelimiter, by simp [split?, hdelimiter]⟩
    intro left right hbetween
    refine hnone left.toList (delimits_toList_iff.mpr ⟨right, ?_⟩)
    rwa [String.ofList_toList]

/-- A delimiter in front of another one does not reach into it. -/
theorem DelimiterBetween.of_shorter
    {left right left' right' : String}
    (h : DelimiterBetween (left ++ "->" ++ right) left' right')
    (hlength : left'.length < left.length) :
    ∃ rest, DelimiterBetween left left' rest := by
  have hlists := congrArg String.toList h.1
  rw [toList_delimited, toList_delimited] at hlists
  have hshorter : left'.toList.length < left.toList.length := by
    rwa [String.length_toList, String.length_toList]
  rcases List.append_eq_append_iff.mp hlists with ⟨gap, hleft', -⟩ | ⟨gap, hleft, hgap⟩
  · rw [hleft', List.length_append] at hshorter
    omega
  · -- what stands between the two places is the earlier delimiter and more
    obtain ⟨rest, rfl⟩ : ∃ rest, gap = '-' :: '>' :: rest := by
      cases gap with
      | nil => simp [hleft] at hshorter
      | cons dash gap =>
          cases gap with
          | nil => simp at hgap
          | cons tip rest =>
              simp only [List.cons_append, List.cons.injEq] at hgap
              exact ⟨rest, by rw [← hgap.1, ← hgap.2.1]⟩
    refine ⟨String.ofList rest, String.toList_inj.mp ?_, h.2⟩
    rw [toList_delimited, hleft, String.toList_ofList]

theorem split?_eq_some_iff {text left right : String} :
    split? text = some (left, right) ↔
      DelimiterBetween text left right ∧
      ∀ left' right', left'.length < left.length → ¬ DelimiterBetween text left' right' := by
  rcases split?_cases text with ⟨first, rest, hbetween, hfirst, -, hsplit⟩ | ⟨hnone, -, hsplit⟩
  · rw [hsplit, Option.some.injEq, Prod.mk.injEq]
    constructor
    · rintro ⟨rfl, rfl⟩
      exact ⟨hbetween, fun left' right' hlt hbetween' =>
        absurd (hfirst left' right' hbetween') (Nat.not_le.mpr hlt)⟩
    · rintro ⟨hleft, hearlier⟩
      have hge : left.length ≤ first.length :=
        Nat.not_lt.mp fun hlt => hearlier first rest hlt hbetween
      exact hbetween.unique hleft (Nat.le_antisymm (hfirst left right hleft) hge)
  · rw [hsplit]
    exact ⟨nofun, fun hleft => absurd hleft.1 (hnone left right)⟩

theorem split?_eq_none_iff {text : String} :
    split? text = none ↔ ∀ left right, ¬ DelimiterBetween text left right := by
  rcases split?_cases text with ⟨left, right, hbetween, -, -, hsplit⟩ | ⟨hnone, -, hsplit⟩
  · rw [hsplit]
    exact ⟨nofun, fun hnone => absurd hbetween (hnone left right)⟩
  · exact ⟨fun _ => hnone, fun _ => hsplit⟩

theorem isValid_of_delimiter?
    {text : String} {offset : Nat}
    (hfound : delimiter? text = some offset) :
    String.Pos.Raw.IsValid text ⟨offset⟩ ∧ String.Pos.Raw.IsValid text ⟨offset + 2⟩ := by
  rcases split?_cases text with ⟨left, right, ⟨rfl, -⟩, -, hdelimiter, -⟩ | ⟨-, hdelimiter, -⟩
  · obtain rfl : (bytes left.toList).length = offset := by
      rwa [hdelimiter, Option.some.injEq] at hfound
    have hlength : (bytes (left ++ "->").toList).length = (bytes left.toList).length + 2 := by
      rw [String.toList_append, bytes_append, List.length_append]
      rfl
    refine ⟨?_, ?_⟩
    · rw [String.append_assoc]
      exact isValid_length_bytes left ("->" ++ right)
    · rw [← hlength]
      exact isValid_length_bytes (left ++ "->") right
  · rw [hdelimiter] at hfound
    cases hfound

/-- A rule is divided at the first delimiter that stands in code, and only one without such a
delimiter is not divided.  The two cuts are between characters.  A delimiter behind a text that
ends in code and has no delimiter of its own is the first. -/
theorem split_at_first_delimiter (text : String) :
    (∀ left right, split? text = some (left, right) ↔
      DelimiterBetween text left right ∧
      ∀ left' right', left'.length < left.length → ¬ DelimiterBetween text left' right') ∧
    (split? text = none ↔ ∀ left right, ¬ DelimiterBetween text left right) ∧
    (∀ offset, delimiter? text = some offset →
      String.Pos.Raw.IsValid text ⟨offset⟩ ∧ String.Pos.Raw.IsValid text ⟨offset + 2⟩) ∧
    (∀ left right, EndsInCode left → (∀ left' right', ¬ DelimiterBetween left left' right') →
      split? (left ++ "->" ++ right) = some (left, right)) := by
  refine ⟨fun _ _ => split?_eq_some_iff, split?_eq_none_iff, fun _ => isValid_of_delimiter?, ?_⟩
  intro left right hcode hnone
  refine split?_eq_some_iff.mpr ⟨⟨rfl, hcode⟩, fun left' right' hlt hbetween => ?_⟩
  obtain ⟨rest, hearlier⟩ := hbetween.of_shorter hlt
  exact hnone left' rest hearlier

theorem split_at_first_delimiter_quoted :
    EndsInCode "'->' /* -> */ é" ∧ split? "'->' /* -> */ é" = none ∧
      split? ("'->' /* -> */ é" ++ "->" ++ "// ->") = some ("'->' /* -> */ é", "// ->") := by
  have hcode : EndsInCode "'->' /* -> */ é" := by decide +kernel
  have hnone : split? "'->' /* -> */ é" = none := by decide +kernel
  obtain ⟨-, hnone_iff, -, hfirst⟩ := split_at_first_delimiter "'->' /* -> */ é"
  exact ⟨hcode, hnone, hfirst _ "// ->" hcode (hnone_iff.mp hnone)⟩

end Graft.Rule
