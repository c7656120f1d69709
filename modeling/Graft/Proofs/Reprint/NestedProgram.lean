import Graft.Proofs.Reprint.LostBlocks

/-!
# Programs of nested statements

Nested statements are printed line by line, with braces only where the tree has blocks.  They are
read back with the same structure exactly if no `else` of theirs would be taken by an `if` further
inside, and none of their blocks is lost.
-/

namespace Graft

open Grammar

variable {style : Style} {d : Nat} {span : Span} {n : Node}

/-! ## Lines -/

/-- Statements behind the first one, each on a line of its own. -/
def furtherLines (style : Style) (ns : List Node) : List Char :=
  (ns.map (Node.statementText style 0)).flatMap fun text => '\n' :: text

theorem furtherLines_cons {ns : List Node} :
    furtherLines style (n :: ns) =
      gap style 0 ++ (n.statementText style 0 ++ furtherLines style ns) := by
  have hgap : gap style 0 = ['\n'] := by
    unfold gap Style.indentationChars
    split <;> simp
  rw [hgap]
  rfl

theorem linesAhead_furtherLines
    {ns : List Node}
    (hns : ∀ n ∈ ns, n.Nested)
    (style : Style) :
    LinesAhead ns (furtherLines style ns) := by
  cases ns with
  | nil =>
      have hnil : Closes [] := ⟨by decide, by decide, by decide, by decide⟩
      exact .of_nil hnil (by decide : wordOf [] ≠ "else") accepts_nil
  | cons n ns =>
      rw [furtherLines_cons]
      exact (hns n List.mem_cons_self).linesAhead ns

/-- Nested statements in a row are read line by line. -/
theorem readsLines_nested
    {ns : List Node}
    (hns : ∀ n ∈ ns, n.Nested)
    (hread : LinesReadBack style ns)
    (hd : ∀ n ∈ ns, 2 * (n.statementText style 0).length < d) :
    ReadsLines (depth d) (ns.map fun n => (n.statementText style 0, n)) := by
  intro front entry rest hsplit
  obtain ⟨before, behind, rfl, -, hbehind⟩ := List.map_eq_append_iff.mp hsplit
  obtain ⟨n, others, rfl, rfl, rfl⟩ := List.map_eq_cons_iff.mp hbehind
  have hn : n ∈ before ++ n :: others := by simp
  have hahead : LinesAhead others (furtherLines style others) :=
    linesAhead_furtherLines (fun m hm => hns m (by simp [hm])) style
  refine ⟨((hns n hn).starts style 0).begins, ?_⟩
  have hspace : ∀ c ∈ ([] : List Char), Text.isBlank c = true := by simp
  have hinside := (hread before n others rfl).inside hspace (hd n hn) hahead.closes
    (fun _ => hahead.noElse) hahead.refuses
  simpa [Function.comp_def, furtherLines] using hinside

/-- A program of which some line loses a block is not read back. -/
theorem gives_program
    {ns : List Node}
    (hns : ∀ n ∈ ns, n.Readable style)
    (hloses : LinesLoseBlock ns)
    (hd : 2 * (lineTexts (ns.map (Node.statementText style 0))).length < d) :
    Gives (program (depth d)) (lineTexts (ns.map (Node.statementText style 0))) fun found =>
      ¬ found.sameStructure (.mk .program span [(.body, .list ns)]) = true := by
  cases ns with
  | nil => exact absurd hloses not_linesLoseBlock_nil
  | cons n ns =>
      have htext : lineTexts ((n :: ns).map (Node.statementText style 0)) =
          n.statementText style 0 ++ furtherLines style ns := rfl
      have hspace : ∀ c ∈ ([] : List Char), Text.isBlank c = true := by simp
      rw [htext] at hd ⊢
      have hamiss : Amiss (depth d).statement (fun n found => found.sameStructure n = true)
          (n :: ns) (n.statementText style 0 ++ furtherLines style ns) :=
        amiss_lines _ (fun _ _ => furtherLines_cons)
          (fun _ hns => linesAhead_furtherLines hns style) hspace hns hloses hd
      have hbegins := ((hns n List.mem_cons_self).nested.starts style 0).begins
        (furtherLines style ns)
      obtain ⟨c, rest, hchars, hc⟩ := hbegins.head
      refine .get fun cur _ => ?_
      refine .after (reads_interpreterLine hbegins.fresh ?_) fun head hhead => ?_
      · rw [hchars]
        simpa using hc
      · refine hamiss.whileMore.bind fun body hbody => .skip fun _ => .skip fun _ =>
          .skip fun _ => .of_pure fun hsame => ?_
        rw [hhead, List.nil_append] at hsame
        exact hbody (Node.forall₂_of_sameStructure hsame)

/-! ## Programs -/

/-- A program that is read back has no `else` that another `if` takes. -/
theorem not_dangles_of_parse_sameStructure
    {source : String} {root : Node} {ns : List Node}
    (hparse : parse source = .ok root)
    (hsame : root.sameStructure (.mk .program span [(.body, .list ns)]) = true) :
    ∀ n ∈ ns, ¬ n.Dangles := by
  intro n hn hdangles
  have hdistinct : root.DistinctFields :=
    Node.distinctFields_of_hasKindFields ((read_of_parse hparse).imp fun _ hn => hn.fields)
  obtain ⟨i, hi⟩ := List.mem_iff_getElem?.mp hn
  obtain ⟨c, hc, hsame'⟩ : ∃ c, root.childAt? ⟨.body, some i⟩ = some c ∧ c.sameStructure n = true :=
    Node.childAt?_of_sameStructure hdistinct.here hsame hi
  have hmem : c ∈ root.list .body := by
    obtain ⟨slot, hslot, hchild⟩ := Node.childAt?_eq_some_iff.mp hc
    cases slot with
    | list items =>
        rw [Node.list, hslot]
        exact List.mem_of_getElem? hchild
    | _ => cases hchild
  exact not_dangles_of_parse hparse c hmem
    (hdangles.of_sameStructure (Node.All.childAt hdistinct hc) hsame')

/-- Nested statements are printed so that they are read back with the same structure exactly if
each `else` stands behind a statement that does not end in an `if` without one, and no block reads
like an object.  No braces are put in to keep such an `if` from taking the `else`, and nothing keeps
such a block from being taken for an object. -/
theorem Node.Nested.parse_print_iff
    {ns : List Node}
    (hns : ∀ n ∈ ns, n.Nested)
    (style : Style) (span : Span) :
    (∃ root, parse ((Node.mk .program span [(.body, .list ns)]).print style) = .ok root ∧
      root.sameStructure (.mk .program span [(.body, .list ns)]) = true) ↔
        (∀ n ∈ ns, ¬ n.Dangles) ∧ ¬ LinesLoseBlock ns := by
  have htext : ((Node.mk .program span [(.body, .list ns)]).print style).toList =
      lineTexts (ns.map (Node.statementText style 0)) := Node.toList_print_program style ns
  constructor
  · rintro ⟨root, hparse, hsame⟩
    have hdangles := not_dangles_of_parse_sameStructure hparse hsame
    refine ⟨hdangles, fun hloses => ?_⟩
    obtain ⟨stop, hrun⟩ := exists_run_of_parse hparse
    rw [htext] at hrun
    exact gives_program (fun n hn => (hns n hn).readable (hdangles n hn) style) hloses (by omega)
      (Cursor.ofText _) htext root stop hrun hsame
  · rintro ⟨hdangles, hkept⟩
    refine exists_parse_of_reads ?_
    have hlines : ReadsLines (depth (4 * ((Node.mk .program span [(.body, .list ns)]).print
        style).toList.length + 16)) (ns.map fun n => (n.statementText style 0, n)) := by
      refine readsLines_nested hns
        (.of_readings (fun n hn => (hns n hn).readings (hdangles n hn) style) hkept) ?_
      intro n hn
      have hlength := length_le_lineTexts (List.mem_map_of_mem (f := Node.statementText style 0) hn)
      rw [htext]
      omega
    have hread := reads_program skips_statement hlines
    rw [List.map_map, List.map_map] at hread
    rw [htext] at hread ⊢
    refine hread.imp fun root hroot => ?_
    obtain ⟨span', body, rfl, hbody⟩ := hroot
    exact Node.sameStructure_program (by simpa [Function.comp_def] using hbody)

/-- An `else` behind an `if` that has none is read as belonging to that `if`.  A block that holds
nothing but a label in front of an empty block is read as an object, but not if another statement
stands behind. -/
theorem Node.Nested.parse_print_dangling :
    ∃ dangling lost kept : Node, dangling.Nested ∧ lost.Nested ∧ kept.Nested ∧
      (Node.mk .program {} [(.body, .list [dangling])]).print =
        "if (a)\n  if (b)\n    c();\nelse\n  d();" ∧
      (Node.mk .program {} [(.body, .list [lost])]).print = "\x7b\n  a: \x7b\n  \x7d\n\x7d" ∧
      (Node.mk .program {} [(.body, .list [kept])]).print =
        "\x7b\n  a: \x7b\n  \x7d\n  b();\n\x7d" ∧
      (¬ ∃ root, parse ((Node.mk .program {} [(.body, .list [dangling])]).print) = .ok root ∧
        root.sameStructure (.mk .program {} [(.body, .list [dangling])]) = true) ∧
      (¬ ∃ root, parse ((Node.mk .program {} [(.body, .list [lost])]).print) = .ok root ∧
        root.sameStructure (.mk .program {} [(.body, .list [lost])]) = true) ∧
      ∃ root, parse ((Node.mk .program {} [(.body, .list [kept])]).print) = .ok root ∧
        root.sameStructure (.mk .program {} [(.body, .list [kept])]) = true := by
  let name (text : String) : Node := .identifier text {}
  let call (text : String) : Node := .mk .expressionStatement {}
    [(.expression, .node (.mk .callExpression {}
      [(.callee, .node (name text)), (.arguments, .list []), (.optional, .flag false)]))]
  let block (ns : List Node) : Node := .mk .blockStatement {} [(.body, .list ns)]
  let label : Node := .mk .labeledStatement {}
    [(.label, .node (name "a")), (.body, .node (block []))]
  let inner : Node := .mk .ifStatement {}
    [(.test, .node (name "b")), (.consequent, .node (call "c")), (.alternate, .absent)]
  let outer : Node := .mk .ifStatement {}
    [(.test, .node (name "a")), (.consequent, .node inner), (.alternate, .node (call "d"))]
  have hcall (text : String) (htext : isVariable text = true) : (call text).Nested :=
    .call (.call (.variableName htext) (by simp)) rfl
  have hinner : inner.Nested :=
    .ifThen (.variableName (by decide +kernel)) (hcall "c" (by decide +kernel))
  have houter : outer.Nested :=
    .ifElse (.variableName (by decide +kernel)) hinner (hcall "d" (by decide +kernel))
  have hlabel : label.Nested := .labeled (by decide +kernel) (.block (by simp))
  have hlost : (block [label]).Nested := .block (List.forall_mem_singleton.mpr hlabel)
  have hkept : (block [label, call "b"]).Nested :=
    .block (List.forall_mem_cons.mpr
      ⟨hlabel, List.forall_mem_singleton.mpr (hcall "b" (by decide +kernel))⟩)
  refine ⟨outer, block [label], block [label, call "b"], houter, hlost, hkept, by decide +kernel,
    by decide +kernel, by decide +kernel, fun hread => ?_, fun hread => ?_, ?_⟩
  · have hdangles : outer.Dangles := .here rfl rfl rfl (.here rfl rfl)
    exact ((Node.Nested.parse_print_iff (List.forall_mem_singleton.mpr houter) {} {}).mp hread).1
      outer List.mem_cons_self hdangles
  · refine ((Node.Nested.parse_print_iff (List.forall_mem_singleton.mpr hlost) {} {}).mp hread).2 ?_
    exact ⟨[], _, [], rfl, .here (by simp [LineEndsBefore]) .empty⟩
  · have hsettled : Settled (block [label, call "b"]) (.ofText "") := by
      refine .of_block (List.forall_mem_cons.mpr ⟨?_, List.forall_mem_singleton.mpr ?_⟩)
      · have hlabel : Settled label (.ofText "") := .of_body (by decide) rfl (.of_block (by simp))
        exact hlabel.inside
      · exact (Settled.of_lone rfl (.ofText "")).inside
    refine (Node.Nested.parse_print_iff (List.forall_mem_singleton.mpr hkept) {} {}).mpr
      ⟨List.forall_mem_singleton.mpr hsettled.inside, fun hloses => ?_⟩
    have hblock : (block [label, call "b"]).LosesBlock (LineEndsBefore []) :=
      (linesLoseBlock_cons.mp hloses).resolve_right not_linesLoseBlock_nil
    have hlines : LinesLoseBlock [label, call "b"] := by
      rcases hblock.of_block with hlines | ⟨-, span', other, body, -, hsingle⟩
      · exact hlines
      · simp at hsingle
    rcases linesLoseBlock_cons.mp hlines with hlabel | hlines
    · have hempty : (block []).LosesBlock (LineEndsBefore [call "b"]) :=
        hlabel.of_body (by decide : Kind.labeledStatement ∈ bodyLast) rfl
      rcases hempty.of_block with hlines | ⟨-, span', other, body, -, hsingle⟩
      · exact not_linesLoseBlock_nil hlines
      · simp at hsingle
    · have hcall : (call "b").LosesBlock (LineEndsBefore []) :=
        (linesLoseBlock_cons.mp hlines).resolve_right not_linesLoseBlock_nil
      cases hcall.not_isLone

end Graft
