import Graft.Proofs.Reprint.Layout

/-!
# Indentation is layout alone

Two styles with the same quotes and the same blank behind `function` print every tree in the same
lines, up to the blanks and tabs that a line starts with.  Printing makes its decisions on
documents, which hold levels and no widths, so both styles lay a tree out as the same document.
What it decides by the lead of a document it decides by the start of the text, whatever the style
and the level.  The texts of one document are then compared from the front: up to the first break
they are equal, and behind a break they differ in the indentation only.
-/

namespace Graft

/-! ## Lines of a text -/

namespace Text

/-- The lines of a text, without the line feeds between them. -/
def lines (text : List Char) : List (List Char) := text.splitOn '\n'

def isIndentation (c : Char) : Bool := c == ' ' || c == '\t'

/-- A line without the blanks and tabs in front. -/
def unindented (line : List Char) : List Char := line.dropWhile isIndentation

theorem lines_nil : lines [] = [[]] := rfl

theorem lines_break (text : List Char) : lines ('\n' :: text) = [] :: lines text := by
  have hsplit := List.splitOnP_cons_eq_if_modifyHead (p := (· == '\n')) '\n' text
  rwa [if_pos (beq_self_eq_true '\n')] at hsplit

theorem lines_cons {c : Char} (hc : c ≠ '\n') (text : List Char) :
    lines (c :: text) = (lines text).modifyHead (c :: ·) := by
  have hsplit := List.splitOnP_cons_eq_if_modifyHead (p := (· == '\n')) c text
  rwa [if_neg (by simpa using hc)] at hsplit

theorem exists_lines_eq_cons (text : List Char) : ∃ first later, lines text = first :: later := by
  cases text with
  | nil => exact ⟨[], [], rfl⟩
  | cons c text =>
      obtain ⟨first, later, hlines⟩ := exists_lines_eq_cons text
      by_cases hc : c = '\n'
      · exact ⟨[], lines text, by rw [hc, lines_break]⟩
      · exact ⟨c :: first, later, by rw [lines_cons hc, hlines, List.modifyHead_cons]⟩

theorem lines_append {front : List Char} (hfront : '\n' ∉ front) (text : List Char) :
    lines (front ++ text) = (lines text).modifyHead (front ++ ·) := by
  obtain ⟨first, later, hlines⟩ := exists_lines_eq_cons text
  induction front with
  | nil => simp [hlines]
  | cons c front ih =>
      rw [List.mem_cons, not_or] at hfront
      rw [List.cons_append, lines_cons (Ne.symm hfront.1), ih hfront.2, hlines]
      rfl

theorem unindented_append
    {front : List Char}
    (hfront : ∀ c ∈ front, isIndentation c = true)
    (line : List Char) :
    unindented (front ++ line) = unindented line := by
  induction front with
  | nil => rfl
  | cons c front ih =>
      rw [List.forall_mem_cons] at hfront
      rw [unindented, List.cons_append, List.dropWhile_cons_of_pos hfront.1]
      exact ih hfront.2

/-- Two texts with the same first line, whose later lines are the same up to indentation. -/
inductive SameLines (x y : List Char) : Prop
  | intro (first : List Char) (later later' : List (List Char)) (hx : lines x = first :: later)
      (hy : lines y = first :: later')
      (hlater : later.map unindented = later'.map unindented)

namespace SameLines

theorem refl_nil : SameLines [] [] := ⟨[], [], [], lines_nil, lines_nil, rfl⟩

variable {x y : List Char}

theorem cons (c : Char) (hsame : SameLines x y) : SameLines (c :: x) (c :: y) := by
  obtain ⟨first, later, later', hx, hy, hlater⟩ := hsame
  by_cases hc : c = '\n'
  · subst hc
    refine ⟨[], lines x, lines y, lines_break x, lines_break y, ?_⟩
    rw [hx, hy, List.map_cons, List.map_cons, hlater]
  · refine ⟨c :: first, later, later', ?_, ?_, hlater⟩
    · rw [lines_cons hc, hx, List.modifyHead_cons]
    · rw [lines_cons hc, hy, List.modifyHead_cons]

theorem append (front : List Char) (hsame : SameLines x y) :
    SameLines (front ++ x) (front ++ y) := by
  induction front with
  | nil => exact hsame
  | cons c front ih => exact ih.cons c

/-- Behind a line feed the two texts may be indented differently. -/
theorem indented
    {front front' : List Char}
    (hsame : SameLines x y)
    (hfront : ∀ c ∈ front, isIndentation c = true)
    (hfront' : ∀ c ∈ front', isIndentation c = true) :
    SameLines ('\n' :: (front ++ x)) ('\n' :: (front' ++ y)) := by
  have hfeed : ∀ blanks : List Char, (∀ c ∈ blanks, isIndentation c = true) → '\n' ∉ blanks :=
    fun blanks hblanks hmem => Bool.noConfusion (hblanks '\n' hmem)
  obtain ⟨first, later, later', hx, hy, hlater⟩ := hsame
  refine ⟨[], lines (front ++ x), lines (front' ++ y), lines_break _, lines_break _, ?_⟩
  rw [lines_append (hfeed front hfront), lines_append (hfeed front' hfront'), hx, hy,
    List.modifyHead_cons, List.modifyHead_cons, List.map_cons, List.map_cons,
    unindented_append hfront, unindented_append hfront', hlater]

theorem map_unindented (hsame : SameLines x y) :
    (lines x).map unindented = (lines y).map unindented := by
  obtain ⟨first, later, later', hx, hy, hlater⟩ := hsame
  rw [hx, hy, List.map_cons, List.map_cons, hlater]

end SameLines
end Text

/-! ## Texts of a document -/

theorem Style.isIndentation_of_mem
    {style : Style} {level : Nat} {c : Char}
    (hc : c ∈ style.indentationChars level) :
    Text.isIndentation c = true := by
  unfold Style.indentationChars at hc
  split at hc
  · rw [(List.mem_replicate.mp hc).2]
    rfl
  · rw [(List.mem_replicate.mp hc).2]
    rfl

/-- One document in two styles and at two levels of nesting. -/
theorem Doc.sameLines_chars (s t : Style) (i j : Nat) (doc : Doc) :
    Text.SameLines (doc.chars s i) (doc.chars t j) := by
  induction doc with
  | nil => exact .refl_nil
  | cons piece rest ih =>
      cases piece with
      | text words => exact ih.append words.toList
      | line depth =>
          exact ih.indented (fun _ => Style.isIndentation_of_mem)
            fun _ => Style.isIndentation_of_mem

/-! ## What the start of a text decides -/

/-- The lead of a document is its text up to the first break. -/
theorem Doc.exists_chars_eq_lead_append (style : Style) (level : Nat) (doc : Doc) :
    ∃ later, doc.chars style level = doc.lead ++ later ∧
      (later = [] ∨ ∃ rest, later = '\n' :: rest) := by
  induction doc with
  | nil => exact ⟨[], rfl, .inl rfl⟩
  | cons piece rest ih =>
      cases piece with
      | text s =>
          obtain ⟨later, hchars, hlater⟩ := ih
          exact ⟨later, by rw [Doc.chars, Doc.lead, hchars, List.append_assoc], hlater⟩
      | line depth => exact ⟨_, rfl, .inr ⟨_, rfl⟩⟩

namespace Text

/-- A text starts with a word, not with a longer one that the word starts. -/
def startsWithWord (text : List Char) (word : String) : Bool :=
  word.toList.isPrefixOf text &&
    match (text.drop word.length).head? with
    | some c => !(isAlphanumeric c || c == '_' || c == '$')
    | none => true

end Text

section Decisions

variable {lead later : List Char} (hlater : later = [] ∨ ∃ rest, later = '\n' :: rest)

include hlater

/-- What holds no line feed stands in front of the first one if it stands in front at all. -/
theorem prefix_append_break_iff {start : List Char} (hstart : '\n' ∉ start) :
    start <+: lead ++ later ↔ start <+: lead := by
  refine ⟨fun hstarts => ?_, fun hstarts => hstarts.trans (List.prefix_append lead later)⟩
  rcases List.prefix_or_prefix_of_prefix hstarts (List.prefix_append lead later) with hlead | hlead
  · exact hlead
  · obtain ⟨more, rfl⟩ := hlead
    rw [List.prefix_append_right_inj] at hstarts
    cases more with
    | nil => simp
    | cons c more =>
        rcases hlater with rfl | ⟨rest, rfl⟩
        · exact absurd (List.prefix_nil.mp hstarts) (List.cons_ne_nil c more)
        · obtain ⟨rfl, -⟩ := List.cons_prefix_cons.mp hstarts
          exact absurd (by simp) hstart

theorem isPrefixOf_append_break {start : List Char} (hstart : '\n' ∉ start) :
    start.isPrefixOf (lead ++ later) = start.isPrefixOf lead := by
  rw [Bool.eq_iff_iff, List.isPrefixOf_iff_prefix, List.isPrefixOf_iff_prefix]
  exact prefix_append_break_iff hlater hstart

theorem Text.startsWithWord_append_break {word : String} (hword : '\n' ∉ word.toList) :
    Text.startsWithWord (lead ++ later) word = Text.startsWithWord lead word := by
  unfold Text.startsWithWord
  rw [isPrefixOf_append_break hlater hword]
  by_cases hstarts : word.toList.isPrefixOf lead = true
  · obtain ⟨more, rfl⟩ := List.isPrefixOf_iff_prefix.mp hstarts
    have hlength : word.length = word.toList.length := String.length_toList.symm
    rw [List.append_assoc, hlength, List.drop_left, List.drop_left]
    cases more with
    | cons c more => rfl
    | nil =>
        rcases hlater with rfl | ⟨rest, rfl⟩
        · rfl
        · have hbreak : isAlphanumeric '\n' = false := by decide
          simp [hbreak]
  · simp [hstarts]

end Decisions

namespace Doc

variable (style : Style) (level : Nat) (doc : Doc)

/-- What the lead of a document starts with is what its text starts with. -/
theorem startsWithText_eq {text : String} (htext : '\n' ∉ text.toList) :
    doc.startsWithText text = text.toList.isPrefixOf (doc.chars style level) := by
  obtain ⟨later, hchars, hlater⟩ := exists_chars_eq_lead_append style level doc
  rw [hchars, isPrefixOf_append_break hlater htext]
  rfl

theorem startsWithWord_eq {word : String} (hword : '\n' ∉ word.toList) :
    doc.startsWithWord word = Text.startsWithWord (doc.chars style level) word := by
  obtain ⟨later, hchars, hlater⟩ := exists_chars_eq_lead_append style level doc
  rw [hchars, Text.startsWithWord_append_break hlater hword]
  rfl

end Doc

/-- A text that a statement is not told from: it starts like a block, a function or a class. -/
def Text.opensOtherwise (text : List Char) : Bool :=
  "\x7b".toList.isPrefixOf text || startsWithWord text "function" || startsWithWord text "class"

namespace Parts

variable (p : Parts) (style : Style) (level : Nat)

/-- Whether an expression is put in parentheses as a statement is decided by its text. -/
theorem chars_expressionStatement :
    p.expressionStatement.chars style level =
      (if Text.opensOtherwise ((p.operand .expression Strength.sequence).chars style level) then
        '(' :: ((p.operand .expression Strength.sequence).chars style level ++ [')'])
      else (p.operand .expression Strength.sequence).chars style level) ++ [';'] := by
  rw [expressionStatement, Doc.chars_append, Doc.startsWithText_eq style level _ (by decide),
    Doc.startsWithWord_eq style level _ (by decide),
    Doc.startsWithWord_eq style level _ (by decide)]
  unfold Text.opensOtherwise
  split
  · simp
  · simp

end Parts

/-- Whether a sign stands apart from its operand is decided by the text of the operand. -/
theorem Node.fuses_eq
    (style : Style) (level : Nat) (operator : String) (argument : Node) :
    fuses style operator argument =
      ((operator == "+" || operator == "-") &&
        operator.toList.isPrefixOf (argument.operandText style level Strength.unary)) := by
  unfold fuses
  by_cases hsign : (operator == "+" || operator == "-") = true
  · have hfeed : '\n' ∉ operator.toList := by
      rw [Bool.or_eq_true, beq_iff_eq, beq_iff_eq] at hsign
      rcases hsign with rfl | rfl <;> decide
    rw [Doc.startsWithText_eq style level _ hfeed]
    rfl
  · simp [hsign]

/-! ## The document of a tree -/

/-- The two styles differ at most in the indentation. -/
structure Style.SameMarks (s t : Style) : Prop where
  quotes : s.quotes = t.quotes
  functionSpace : s.functionSpace = t.functionSpace

/-- Of its style, a node whose children are printed looks at the quotes and at the blank behind
`function` only. -/
theorem Parts.toPrinted_congr
    {s t : Style}
    (hstyle : s.SameMarks t)
    (n : Node) (slots : List (Field × PrintedSlot)) :
    Parts.toPrinted ⟨s, n, slots⟩ = Parts.toPrinted ⟨t, n, slots⟩ := by
  obtain ⟨indent, useTabs, quotes, functionSpace⟩ := s
  obtain ⟨indent', useTabs', quotes', functionSpace'⟩ := t
  obtain ⟨hquotes, hspace⟩ := hstyle
  cases hquotes
  cases hspace
  -- nothing that builds a document reads the other two fields
  rfl

mutual

theorem Node.printed_congr {s t : Style} (hstyle : s.SameMarks t) :
    (n : Node) →
      n.printed s = n.printed t
  | .mk kind span slots => by
    rw [Node.printed, Node.printed, printedSlots_congr hstyle slots, Parts.toPrinted_congr hstyle]
termination_by structural n => n

theorem Slot.printed_congr {s t : Style} (hstyle : s.SameMarks t) :
    (slot : Slot) →
      slot.printed s = slot.printed t
  | .node n => by rw [Slot.printed, Slot.printed, n.printed_congr hstyle]
  | .list ns => by rw [Slot.printed, Slot.printed, printedNodes_congr hstyle ns]
  | .absent => rfl
  | .scalar _ => rfl
termination_by structural slot => slot

theorem printedSlots_congr {s t : Style} (hstyle : s.SameMarks t) :
    (slots : List (Field × Slot)) → printedSlots s slots = printedSlots t slots
  | [] => rfl
  | (field, slot) :: rest => by
    rw [printedSlots, printedSlots, slot.printed_congr hstyle, printedSlots_congr hstyle rest]
termination_by structural slots => slots

theorem printedNodes_congr {s t : Style} (hstyle : s.SameMarks t) :
    (ns : List Node) → printedNodes s ns = printedNodes t ns
  | [] => rfl
  | n :: rest => by
    rw [printedNodes, printedNodes, n.printed_congr hstyle, printedNodes_congr hstyle rest]
termination_by structural ns => ns

end

theorem Node.layout_congr {s t : Style} (hstyle : s.SameMarks t) (n : Node) :
    n.layout s = n.layout t := by
  rw [layout, layout, printedNodes_congr hstyle, n.printed_congr hstyle]

/-! ## Printed texts -/

/-- Styles that agree on the quotes and on the blank behind `function` print a tree in equally
many lines, and in the same lines once their indentation is taken away; the same holds of the
text of the tree at any two levels of nesting. -/
theorem Node.print_lines_eq
    (n : Node)
    {s t : Style}
    (hquotes : s.quotes = t.quotes) (hspace : s.functionSpace = t.functionSpace) :
    (Text.lines (n.print s).toList).length = (Text.lines (n.print t).toList).length ∧
    (Text.lines (n.print s).toList).map Text.unindented =
      (Text.lines (n.print t).toList).map Text.unindented ∧
    ∀ i j, (Text.lines ((n.layout s).chars s i)).map Text.unindented =
      (Text.lines ((n.layout t).chars t j)).map Text.unindented := by
  have hlevels : ∀ i j, (Text.lines ((n.layout s).chars s i)).map Text.unindented =
      (Text.lines ((n.layout t).chars t j)).map Text.unindented := by
    intro i j
    rw [n.layout_congr ⟨hquotes, hspace⟩]
    exact (Doc.sameLines_chars s t i j (n.layout t)).map_unindented
  have hlines := hlevels 0 0
  rw [← Doc.toList_render, ← Doc.toList_render] at hlines
  have hlength := congrArg List.length hlines
  rw [List.length_map, List.length_map] at hlength
  exact ⟨hlength, hlines, hlevels⟩

/-- A loop around a text of three lines, with blanks and with tabs. -/
theorem Node.print_lines_eq_of_tabs :
    let minus (argument : Node) : Node := .mk .unaryExpression {}
      [(.operator, .text "-"), (.argument, .node argument)]
    let n : Node := .mk .whileStatement {}
      [(.test, .node (minus (minus (.identifier "x")))),
        (.body, .node (.mk .blockStatement {}
          [(.body, .list [.raw "class A \x7b\n  m() \x7b\x7d\n\x7d"])]))]
    n.print {} = "while (- -x) \x7b\n  class A \x7b\n  m() \x7b\x7d\n\x7d\n\x7d" ∧
    n.print { useTabs := true } =
      "while (- -x) \x7b\n\tclass A \x7b\n  m() \x7b\x7d\n\x7d\n\x7d" ∧
    (Text.lines (n.print {}).toList).map Text.unindented =
      (Text.lines (n.print { useTabs := true }).toList).map Text.unindented := by
  intro minus n
  have hlines := n.print_lines_eq (s := {}) (t := { useTabs := true }) rfl rfl
  exact ⟨by decide +kernel, by decide +kernel, hlines.2.1⟩

end Graft
