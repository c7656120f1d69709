import Graft.Proofs.DanglingElse
import Graft.Proofs.Reprint.Program
import Graft.Source

/-!
# Strings keep their values

A string is printed with quotes and escapes and read back as the value it had, unless it has a NUL
in front of a digit: the two are written `\0` and the digit, and read as a zero and the digit.  In
a program of expressions that is printed and read again, every string stands at its old place with
its old value.
-/

namespace Graft

open Grammar

/-! ## Values -/

/-- Somewhere in the string a NUL is followed by a digit. -/
def Text.Quoted.HasNulBeforeDigit (value : String) : Prop :=
  ∃ front digit back, value.toList = front ++ '\x00' :: digit :: back ∧ digit.isDigit = true

theorem Text.Quoted.digitFirst_iff {text : List Char} :
    digitFirst text = true ↔ ∃ digit back, text = digit :: back ∧ digit.isDigit = true := by
  cases text with
  | nil => simp [digitFirst]
  | cons c text => simp [digitFirst]

theorem Text.Quoted.nulBeforeDigit_iff {text : List Char} :
    nulBeforeDigit text = true ↔
      ∃ front digit back, text = front ++ '\x00' :: digit :: back ∧ digit.isDigit = true := by
  induction text with
  | nil => simp [nulBeforeDigit]
  | cons c text ih =>
      rw [nulBeforeDigit, Bool.or_eq_true, Bool.and_eq_true, beq_iff_eq, digitFirst_iff, ih]
      constructor
      · rintro (⟨rfl, digit, back, rfl, hdigit⟩ | ⟨front, digit, back, rfl, hdigit⟩)
        · exact ⟨[], digit, back, rfl, hdigit⟩
        · exact ⟨c :: front, digit, back, rfl, hdigit⟩
      · rintro ⟨front, digit, back, htext, hdigit⟩
        cases front with
        | nil =>
            cases htext
            exact .inl ⟨rfl, digit, back, rfl, hdigit⟩
        | cons first front =>
            cases htext
            exact .inr ⟨front, digit, back, rfl, hdigit⟩

theorem Text.Quoted.nulBeforeDigit_eq_false_iff {value : String} :
    nulBeforeDigit value.toList = false ↔ ¬ HasNulBeforeDigit value := by
  rw [HasNulBeforeDigit, ← nulBeforeDigit_iff, Bool.not_eq_true]

/-! ## Places -/

/-- The value of a string literal. -/
def Node.string? (n : Node) : Option String :=
  match n.slot? .value with
  | some (.scalar (.str value)) => some value
  | _ => none

/-- The value of the string literal at a place of the tree. -/
def Node.stringAt? (root : Node) (path : Path) : Option String :=
  (path.resolve? root).bind Node.string?

theorem Node.string?_eq_some_iff {n : Node} {value : String} :
    n.string? = some value ↔ n.slot? .value = some (.scalar (.str value)) := by
  unfold Node.string?
  split
  · rename_i found hslot
    simp [hslot]
  · rename_i hother
    exact iff_of_false nofun (hother value)

theorem Node.string?_of_sameStructure
    {a b : Node}
    (ha : a.fields.Nodup) (hsame : a.sameStructure b = true)
    {value : String}
    (hvalue : b.string? = some value) :
    a.string? = some value := by
  rw [Node.string?_eq_some_iff] at hvalue ⊢
  obtain ⟨slot, hslot, hsame'⟩ := Node.slot?_of_sameStructure ha hsame hvalue
  cases slot with
  | scalar scalar =>
      cases scalar <;> simp [Slot.sameStructure, Scalar.same] at hsame'
      rw [hslot, hsame']
  | _ => simp [Slot.sameStructure] at hsame'

theorem Path.resolve?_of_sameStructure
    {path : Path} {a b : Node}
    (ha : a.DistinctFields) (hsame : a.sameStructure b = true)
    {n : Node}
    (hn : path.resolve? b = some n) :
    ∃ n', path.resolve? a = some n' ∧ n'.DistinctFields ∧ n'.sameStructure n = true := by
  induction path generalizing a b with
  | nil =>
      cases hn
      exact ⟨a, rfl, ha, hsame⟩
  | cons step rest ih =>
      rw [Path.resolve?_cons, Option.bind_eq_some_iff] at hn
      obtain ⟨c, hc, hn⟩ := hn
      obtain ⟨c', hc', hsame'⟩ := Node.childAt?_of_sameStructure ha.here hsame hc
      obtain ⟨n', hn', hfound⟩ := ih (Node.All.childAt ha hc') hsame' hn
      exact ⟨n', by rw [Path.resolve?_cons, hc', Option.bind_some, hn'], hfound⟩

/-- A tree of the same structure has each string at the same place. -/
theorem Node.stringAt?_of_sameStructure
    {a b : Node}
    (ha : a.DistinctFields) (hsame : a.sameStructure b = true)
    {path : Path} {value : String}
    (hvalue : b.stringAt? path = some value) :
    a.stringAt? path = some value := by
  obtain ⟨n, hn, hstring⟩ := Option.bind_eq_some_iff.mp hvalue
  obtain ⟨n', hn', hdistinct, hsame'⟩ := Path.resolve?_of_sameStructure ha hsame hn
  refine Option.bind_eq_some_iff.mpr ⟨n', hn', ?_⟩
  exact Node.string?_of_sameStructure hdistinct.here hsame' hstring

/-! ## Programs of expressions -/

/-- A statement that is one expression. -/
inductive Node.PlainStatement : Node → Prop
  | mk {span : Span} {e : Node} (he : e.Plain .operand) :
      PlainStatement (.mk .expressionStatement span [(.expression, .node e)])

/-- A program whose statements are expressions. -/
inductive Node.PlainProgram : Node → Prop
  | mk {span : Span} {ns : List Node} (hns : ∀ n ∈ ns, n.PlainStatement) :
      PlainProgram (.mk .program span [(.body, .list ns)])

theorem readsLines_plain
    {style : Style} {d : Nat} {ns : List Node}
    (hns : ∀ n ∈ ns, n.PlainStatement) (hd : ∀ n ∈ ns, 2 * (n.statementText style 0).length ≤ d) :
    ReadsLines (depth (d + 1)) (ns.map fun n => (n.statementText style 0, n)) := by
  intro front entry rest hsplit
  obtain ⟨before, behind, rfl, -, hbehind⟩ := List.map_eq_append_iff.mp hsplit
  obtain ⟨n, others, rfl, rfl, rfl⟩ := List.map_eq_cons_iff.mp hbehind
  have hn : n ∈ before ++ n :: others := by simp
  have hlength := hd n hn
  cases hns n hn with
  | mk he =>
      have hrereads : Node.Rereads style _ := he.rereadsAs style
      exact ⟨hrereads.begins_statement _ 0, hrereads.reads_statement _ 0 _ hlength⟩

theorem Node.PlainProgram.exists_parse_print
    {root : Node}
    (hroot : root.PlainProgram)
    (style : Style) :
    ∃ root', parse (root.print style) = .ok root' ∧ root'.sameStructure root = true := by
  cases hroot with
  | @mk span ns hns =>
      refine exists_parse_of_reads ?_
      rw [Node.toList_print_program]
      have hlines : ReadsLines
          (depth (4 * (lineTexts (ns.map (Node.statementText style 0))).length + 16))
          (ns.map fun n => (n.statementText style 0, n)) := by
        refine readsLines_plain hns fun n hn => ?_
        have hlength :=
          length_le_lineTexts (List.mem_map_of_mem (f := Node.statementText style 0) hn)
        omega
      have hread := reads_program skips_statement hlines
      rw [List.map_map, List.map_map] at hread
      refine hread.imp fun root' hroot' => ?_
      obtain ⟨span', body, rfl, hbody⟩ := hroot'
      exact Node.sameStructure_program (by simpa [Function.comp_def] using hbody)

/-- A string that is quoted and decoded keeps its value exactly if it has no NUL in front of a
digit.  Every other string is read as its value wherever a string is read, and a program of
expressions without such strings has all its strings after formatting, at the same places. -/
theorem string_values_kept :
    (∀ (value : String) (quotes : QuoteStyle),
      Text.Quoted.decode (Text.Quoted.encode value quotes) = value ↔
        ¬ Text.Quoted.HasNulBeforeDigit value) ∧
    (∀ (value : String) (quotes : QuoteStyle) (tail : List Char),
      ¬ Text.Quoted.HasNulBeforeDigit value →
        Reads stringLiteral ((Text.Quoted.encode value quotes).toList ++ tail) tail fun n =>
          ∃ span, n = .mk .literal span [(.value, .scalar (.str value))]) ∧
    (∀ root : Node, root.PlainProgram → ∀ style : Style,
      (∀ source, parse source = .ok root → format source style = .ok (root.print style)) ∧
      ∃ root', parse (root.print style) = .ok root' ∧ root'.sameStructure root = true ∧
        ∀ path value, root.stringAt? path = some value → root'.stringAt? path = some value) := by
  refine ⟨fun value quotes => ?_, fun value quotes tail hvalue => ?_, fun root hroot style => ?_⟩
  · rw [Text.Quoted.decode_encode_eq_iff, Text.Quoted.nulBeforeDigit_eq_false_iff]
  · exact reads_stringLiteral (Text.Quoted.nulBeforeDigit_eq_false_iff.mpr hvalue) quotes
  · refine ⟨fun source hparse => ?_, ?_⟩
    · rw [format, readTree, hparse]
      rfl
    · obtain ⟨root', hparse, hsame⟩ := hroot.exists_parse_print style
      have hdistinct : root'.DistinctFields :=
        Node.distinctFields_of_hasKindFields ((read_of_parse hparse).imp fun _ hn => hn.fields)
      exact ⟨root', hparse, hsame, fun path value =>
        Node.stringAt?_of_sameStructure hdistinct hsame⟩

/-- A NUL in front of a letter is kept, and one in front of a digit is not. -/
theorem string_values_kept_letter :
    ∃ (root : Node) (path : Path), root.PlainProgram ∧ root.stringAt? path = some "\x00a'" ∧
      root.print = "f('\\0a\\'');" ∧
      (∃ root', parse root.print = .ok root' ∧ root'.stringAt? path = some "\x00a'") ∧
      Text.Quoted.decode (Text.Quoted.encode "\x001" .single) ≠ "\x001" := by
  let literal : Node := .mk .literal {} [(.value, .scalar (.str "\x00a'"))]
  let call : Node := .mk .callExpression {} [(.callee, .node (.identifier "f" {})),
    (.arguments, .list [literal]), (.optional, .flag false)]
  let statement : Node := .mk .expressionStatement {} [(.expression, .node call)]
  let path : Path := [⟨.body, some 0⟩, ⟨.expression, none⟩, ⟨.arguments, some 0⟩]
  have hliteral : literal.Plain .operand := .string (by decide +kernel)
  have hcall : call.Plain .operand :=
    .call (.variableName (by decide +kernel)) (List.forall_mem_singleton.mpr (.value hliteral))
  have hroot : (Node.mk .program {} [(.body, .list [statement])]).PlainProgram :=
    .mk (List.forall_mem_singleton.mpr (.mk hcall))
  obtain ⟨hdecode, -, hprograms⟩ := string_values_kept
  obtain ⟨-, root', hparse, -, hstrings⟩ := hprograms _ hroot {}
  refine ⟨_, path, hroot, rfl, by decide +kernel, ⟨root', hparse, hstrings path _ rfl⟩, ?_⟩
  rw [Ne, hdecode, not_not]
  exact ⟨[], '1', [], by decide +kernel, rfl⟩

end Graft
