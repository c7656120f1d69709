import Graft.Proofs.CommandRuns
import Graft.Proofs.Pipeline

/-!
# Files that a command touches

A run of a command that formats or transforms changes its inputs and nothing else, each to the text
made of its content at the start.  It changes nothing at all unless it is told to write, its flags
are accepted, every directory it is given can be listed and every input can be read.  When an input
fails, be it that there is no new text or that it cannot be written, the ones in front of it are
written and everything else is as it was.
-/

namespace Graft.Cli

open Workspace

/-! ## Consequences of an ending -/

section Endings

variable {w after : Workspace} {files : List String} {output : Output}
  {revise : String → Except Failure String} {result : Except Trouble Nat}

/-- Every trouble is reported by the same exit code. -/
def exitCode : Except Trouble Nat → Nat
  | .ok code => code
  | .error _ => 1

theorem Ending.eq_of_dry
    (hending : Ending w files output revise result after) (hdry : output.write = false) :
    after = w := by
  cases hending with
  | refused | unlisted | unread | dry => rfl
  | stopped hwrite => exact absurd (hdry.symm.trans hwrite) Bool.false_ne_true
  | done hwrite => exact absurd (hdry.symm.trans hwrite) Bool.false_ne_true

theorem Ending.of_refused
    (hending : Ending w files output revise result after) (hrefused : Refused files output) :
    exitCode result = 1 ∧ after = w := by
  cases hending with
  | refused | unlisted | unread => exact ⟨rfl, rfl⟩
  | dry hdry => exact absurd (hdry.symm.trans hrefused.1) Bool.false_ne_true
  | stopped _ hallowed => exact absurd hrefused hallowed
  | done _ hallowed => exact absurd hrefused hallowed

theorem Ending.of_unlisted
    {cause : String × FileError}
    (hending : Ending w files output revise result after)
    (hcause : inputPaths w files = .error cause) :
    exitCode result = 1 ∧ after = w := by
  cases hending with
  | refused | unlisted | unread => exact ⟨rfl, rfl⟩
  | dry _ _ hpaths => cases hcause.symm.trans hpaths
  | stopped _ _ _ _ _ hpaths => cases hcause.symm.trans hpaths
  | done _ _ _ hpaths => cases hcause.symm.trans hpaths

theorem Revisable.exists_text {path : String} (hpath : Revisable w revise path) :
    ∃ text, w.read path = .ok text := by
  obtain ⟨text, _, htext, _⟩ := hpath
  exact ⟨text, htext⟩

theorem Ending.of_unread
    {paths : List String} {path : String}
    (hending : Ending w files output revise result after)
    (hpaths : inputPaths w files = .ok paths)
    (hpath : path ∈ paths)
    (hread : ¬ ∃ text, w.read path = .ok text) :
    exitCode result = 1 ∧ after = w := by
  cases hending with
  | refused | unlisted | unread => exact ⟨rfl, rfl⟩
  | dry _ _ hpaths' hall =>
      cases hpaths.symm.trans hpaths'
      exact absurd (hall path hpath) hread
  | stopped _ _ _ _ _ hpaths' hall =>
      cases hpaths.symm.trans hpaths'
      exact absurd (hall path hpath) hread
  | done _ _ _ hpaths' hall =>
      cases hpaths.symm.trans hpaths'
      exact absurd (hall path hpath).exists_text hread

theorem Ending.of_revisable
    {paths : List String}
    (hending : Ending w files output revise result after)
    (hwrite : output.write = true)
    (hallowed : ¬ Refused files output)
    (hpaths : inputPaths w files = .ok paths)
    (hall : ∀ path ∈ paths, Revisable w revise path) :
    exitCode result = 0 ∧ Revised w revise (locations w paths) after := by
  cases hending with
  | refused hrefused => exact absurd hrefused hallowed
  | unlisted _ hcause => cases hcause.symm.trans hpaths
  | unread _ hpaths' path hpath cause hcause =>
      cases hpaths.symm.trans hpaths'
      obtain ⟨text, htext⟩ := (hall path hpath).exists_text
      cases hcause.symm.trans htext
  | dry hdry => exact absurd (hdry.symm.trans hwrite) Bool.false_ne_true
  | stopped _ _ before path behind hpaths' _ _ hpath =>
      cases hpaths.symm.trans hpaths'
      exact absurd (hall path (by simp)) hpath
  | done _ _ _ hpaths' _ _ hafter =>
      cases hpaths.symm.trans hpaths'
      exact ⟨rfl, hafter⟩

theorem Ending.of_not_revisable
    {before behind : List String} {path : String}
    (hending : Ending w files output revise result after)
    (hwrite : output.write = true)
    (hallowed : ¬ Refused files output)
    (hpaths : inputPaths w files = .ok (before ++ path :: behind))
    (hread : ∀ other ∈ before ++ path :: behind, ∃ text, w.read other = .ok text)
    (hbefore : ∀ other ∈ before, Revisable w revise other)
    (hpath : ¬ Revisable w revise path) :
    exitCode result = 1 ∧ Revised w revise (locations w before) after := by
  cases hending with
  | refused hrefused => exact absurd hrefused hallowed
  | unlisted _ hcause => cases hcause.symm.trans hpaths
  | unread _ hpaths' other hother cause hcause =>
      cases hpaths.symm.trans hpaths'
      obtain ⟨text, htext⟩ := hread other hother
      cases hcause.symm.trans htext
  | dry hdry => exact absurd (hdry.symm.trans hwrite) Bool.false_ne_true
  | stopped _ _ before' path' behind' hpaths' _ hbefore' hpath' _ hafter =>
      -- a list has one first element without a property, so this is where the run stopped
      have hsplit := Except.ok.inj (hpaths.symm.trans hpaths')
      have hsame := before_eq_of_first hsplit hbefore hpath hbefore' hpath'
      exact ⟨rfl, hsame ▸ hafter⟩
  | done _ _ _ hpaths' hall =>
      cases hpaths.symm.trans hpaths'
      exact absurd (hall path (by simp)) hpath

/-- However a run ends, what it leaves is a workspace in which some of the inputs were revised. -/
theorem Ending.exists_revised (hending : Ending w files output revise result after) :
    ∃ paths, Revised w revise (locations w paths) after ∧
      ∀ path ∈ paths, ∃ all, inputPaths w files = .ok all ∧ path ∈ all := by
  cases hending with
  | refused | unlisted | unread | dry => exact ⟨[], .refl w, by simp⟩
  | stopped _ _ before path behind hpaths _ _ _ _ hafter =>
      exact ⟨before, hafter, fun other hother => ⟨_, hpaths, List.mem_append_left _ hother⟩⟩
  | done _ _ paths hpaths _ _ hafter =>
      exact ⟨paths, hafter, fun other hother => ⟨_, hpaths, hother⟩⟩

end Endings

/-! ## Runs of the program -/

/-- The outcome of a run that revises the inputs of a command. -/
structure EditsInputs (w : Workspace) (files : List String) (output : Output)
    (revise : String → Except Failure String) (outcome : Outcome) : Prop where
  /-- The inputs are the files that are named and the programs below directories that are. -/
  inputs : ∀ paths, inputPaths w files = .ok paths →
    ∀ location, location ∈ locations w paths ↔ w.HasInput files location
  dry : output.write = false → outcome.workspace = w
  refused : Refused files output → outcome.code = 1 ∧ outcome.workspace = w
  unlisted : ∀ cause, inputPaths w files = .error cause →
    outcome.code = 1 ∧ outcome.workspace = w
  unread : ∀ paths, inputPaths w files = .ok paths →
    ∀ path ∈ paths, (¬ ∃ text, w.read path = .ok text) →
    outcome.code = 1 ∧ outcome.workspace = w
  /-- No file or directory appears, disappears or moves. -/
  places : outcome.workspace.SamePlaces w
  changed : ∀ location, outcome.workspace.tree.file? location ≠ w.tree.file? location →
    w.HasInput files location ∧ w.RevisedAt revise outcome.workspace location
  complete : output.write = true → ¬ Refused files output →
    ∀ paths, inputPaths w files = .ok paths → (∀ path ∈ paths, Revisable w revise path) →
    outcome.code = 0 ∧
      ∀ location, w.HasInput files location → w.RevisedAt revise outcome.workspace location
  /-- The first input that cannot be revised ends the run. -/
  stopped : output.write = true → ¬ Refused files output → ∀ before path behind,
    inputPaths w files = .ok (before ++ path :: behind) →
    (∀ other ∈ before ++ path :: behind, ∃ text, w.read other = .ok text) →
    (∀ other ∈ before, Revisable w revise other) → ¬ Revisable w revise path →
    outcome.code = 1 ∧
      (∀ location ∈ locations w before, w.RevisedAt revise outcome.workspace location) ∧
      ∀ location, location ∉ locations w before →
        outcome.workspace.tree.file? location = w.tree.file? location

variable {w : Workspace} {files rules used : List String} {output : Output}
  {revise : String → Except Failure String} {stdin : String} {arguments : List String}
  {command : Command}

theorem Ending.editsInputs
    {result : Except Trouble Nat} {outcome : Outcome}
    (hw : w.Proper)
    (hending : Ending w files output revise result outcome.workspace)
    (hcode : outcome.code = exitCode result) :
    EditsInputs w files output revise outcome := by
  have hinputs : ∀ paths, inputPaths w files = .ok paths →
      ∀ location, location ∈ locations w paths ↔ w.HasInput files location :=
    fun paths hpaths location => mem_locations_iff.trans (hasInput_iff hw hpaths).symm
  obtain ⟨reached, hrevised, hreached⟩ := hending.exists_revised
  constructor
  case inputs => exact hinputs
  case dry => exact hending.eq_of_dry
  case refused =>
    rw [hcode]
    exact hending.of_refused
  case unlisted =>
    intro cause hcause
    rw [hcode]
    exact hending.of_unlisted hcause
  case unread =>
    intro paths hpaths path hpath hread
    rw [hcode]
    exact hending.of_unread hpaths hpath hread
  case places => exact hrevised.samePlaces
  case changed =>
    intro location hchanged
    have hmem : location ∈ locations w reached := by
      by_contra habsent
      exact hchanged (hrevised.untouched location habsent)
    obtain ⟨path, hpath, hlocate⟩ := mem_locations_iff.mp hmem
    obtain ⟨paths, hpaths, hpath⟩ := hreached path hpath
    have hinput := mem_locations_iff.mpr ⟨path, hpath, hlocate⟩
    exact ⟨(hinputs paths hpaths location).mp hinput, hrevised.revised location hmem⟩
  case complete =>
    intro hwrite hallowed paths hpaths hall
    obtain ⟨hresult, hafter⟩ := hending.of_revisable hwrite hallowed hpaths hall
    refine ⟨hcode.trans hresult, fun location hinput => ?_⟩
    exact hafter.revised location ((hinputs paths hpaths location).mpr hinput)
  case stopped =>
    intro hwrite hallowed before path behind hpaths hread hbefore hpath
    obtain ⟨hresult, hafter⟩ :=
      hending.of_not_revisable hwrite hallowed hpaths hread hbefore hpath
    exact ⟨hcode.trans hresult, hafter.revised, hafter.untouched⟩

/-- A file whose revision is the text it has already is left alone. -/
theorem EditsInputs.file?_of_fixed
    {outcome : Outcome}
    (hedits : EditsInputs w files output revise outcome)
    {location : Location} {text : String}
    (htext : w.tree.file? location = some text) (hfixed : revise text = .ok text) :
    outcome.workspace.tree.file? location = some text := by
  by_cases hsame : outcome.workspace.tree.file? location = w.tree.file? location
  · rw [hsame, htext]
  · obtain ⟨-, text', new, htext', hnew, hafter⟩ := hedits.changed location hsame
    cases htext.symm.trans htext'
    cases hfixed.symm.trans hnew
    exact hafter

/-- Rules that are not applied anywhere leave a text as it is, also at its end. -/
theorem transformed_of_not_applied
    {compiled : List Rule} {text : String} {root tree : Node}
    (hcompiled : used.mapM Rule.compile = .ok compiled)
    (hroot : parse text = .ok root)
    (happlied : Rule.transformTree compiled root = .ok (tree, 0)) :
    transformed used text = .ok text := by
  have hsource : transformAll text used = .ok text := by
    rw [transformAll, hcompiled]
    change Rule.transformSource compiled text = _
    rw [Rule.transformSource_of_parse hroot, happlied]
    rfl
  rw [transformed, hsource]
  simp [Except.map]

theorem run_of_command
    (hcommand : Command.ofArguments arguments = .ok command)
    {result : Except Trouble Nat} {p : Progressed}
    (hrun : (command.run stdin).run { workspace := w } = (result, p)) :
    (run w stdin arguments).code = exitCode result ∧
      (run w stdin arguments).workspace = p.workspace := by
  unfold run
  rw [hcommand]
  dsimp only
  rw [hrun]
  cases result <;> exact ⟨rfl, rfl⟩

theorem editsInputs_of_run_eq
    (hw : w.Proper) (hcommand : Command.ofArguments arguments = .ok command)
    {task : String}
    (hrun : (command.run stdin).run { workspace := w } =
      (editAll task stdin files output revise).run { workspace := w }) :
    EditsInputs w files output revise (run w stdin arguments) := by
  obtain ⟨result, p, hedit, hending⟩ :=
    run_editAll task stdin files output revise { workspace := w }
  obtain ⟨hcode, hworkspace⟩ := run_of_command hcommand (hrun.trans hedit)
  exact Ending.editsInputs hw (hworkspace ▸ hending) hcode

theorem run_of_trouble
    (hcommand : Command.ofArguments arguments = .ok command)
    (hrun : ∃ trouble, (command.run stdin).run { workspace := w } =
      (.error trouble, { workspace := w })) :
    (run w stdin arguments).code = 1 ∧ (run w stdin arguments).workspace = w := by
  obtain ⟨trouble, hrun⟩ := hrun
  exact run_of_command hcommand hrun

theorem run_of_stop {stop : Stop} (hstop : Command.ofArguments arguments = .error stop) :
    (run w stdin arguments).workspace = w := by
  unfold run
  rw [hstop]
  cases stop <;> rfl

/-- Whatever the arguments are, if they ask for a program to be formatted or transformed the run
edits its inputs and no other files, unless it ends before it comes to them: for want of a command,
of settings or of rules.  A file to which no rule applies keeps its text, also without a newline at
its end. -/
theorem run_edits_inputs_only
    (hw : w.Proper)
    (stdin : String) (arguments : List String) :
    (∀ stop, Command.ofArguments arguments = .error stop →
      (run w stdin arguments).workspace = w) ∧
    (∀ files output, Command.ofArguments arguments = .ok (.format files output) →
      (∀ e, settingsFor w output.config = .error e →
        (run w stdin arguments).code = 1 ∧ (run w stdin arguments).workspace = w) ∧
      ∀ settings, settingsFor w output.config = .ok settings →
        EditsInputs w files output (formatted settings.format) (run w stdin arguments)) ∧
    ∀ files rules output, Command.ofArguments arguments = .ok (.transform files rules output) →
      (rulesFor w rules output.config = none →
        (run w stdin arguments).code = 1 ∧ (run w stdin arguments).workspace = w) ∧
      ∀ used, rulesFor w rules output.config = some used →
        EditsInputs w files output (transformed used) (run w stdin arguments) ∧
        ∀ location text compiled root tree, w.tree.file? location = some text →
          used.mapM Rule.compile = .ok compiled → parse text = .ok root →
          Rule.transformTree compiled root = .ok (tree, 0) →
          (run w stdin arguments).workspace.tree.file? location = some text := by
  refine ⟨fun stop hstop => run_of_stop hstop, ?_, ?_⟩
  · intro files output hcommand
    constructor
    · intro e hsettings
      exact run_of_trouble hcommand (run_runFormat_of_error hsettings)
    · intro settings hsettings
      exact editsInputs_of_run_eq hw hcommand (run_runFormat hsettings)
  · intro files rules output hcommand
    constructor
    · intro hnone
      exact run_of_trouble hcommand (run_runTransform_of_none hnone)
    · intro used hused
      have hedits : EditsInputs w files output (transformed used) (run w stdin arguments) :=
        editsInputs_of_run_eq hw hcommand (run_runTransform hused)
      refine ⟨hedits, ?_⟩
      intro location text compiled root tree htext hcompiled hroot happlied
      exact hedits.file?_of_fixed htext (transformed_of_not_applied hcompiled hroot happlied)

/-- Three programs, of which the one in the middle is in a directory that cannot be written. -/
def lockedFiles : Workspace :=
  { tree := {
      files := [(["a.js"], "f(1)"), (["lib", "b.js"], "f(2)"), (["c.js"], "f(3)")]
      unwritable := [(["lib"], .denied)] } }

theorem lockedFiles_proper : lockedFiles.Proper := by
  decide +kernel

/-- The middle one of three inputs cannot be written: the first is, the last is not. -/
theorem run_edits_inputs_only_stopped :
    lockedFiles.Proper ∧
    EditsInputs lockedFiles ["a.js", "lib", "c.js"] { write := true } (transformed ["f(x) -> g(x)"])
      (run lockedFiles "" ["rewrite", "-w", "-r", "f(x) -> g(x)", "a.js", "lib", "c.js"]) ∧
    (run lockedFiles "" ["rewrite", "-w", "-r", "f(x) -> g(x)", "a.js", "lib", "c.js"]).code = 1 ∧
    (run lockedFiles "" ["rewrite", "-w", "-r", "f(x) -> g(x)", "a.js", "lib",
      "c.js"]).workspace.tree.file? ["a.js"] = some "g(1);\n" ∧
    (run lockedFiles "" ["rewrite", "-w", "-r", "f(x) -> g(x)", "a.js", "lib",
      "c.js"]).workspace.tree.file? ["c.js"] = some "f(3)" := by
  have hcommand : Command.ofArguments
      ["rewrite", "-w", "-r", "f(x) -> g(x)", "a.js", "lib", "c.js"] =
        .ok (.transform ["a.js", "lib", "c.js"] ["f(x) -> g(x)"] { write := true }) := by
    decide +kernel
  have hedits := (((run_edits_inputs_only lockedFiles_proper "" _).2.2 _ _ _ hcommand).2 _ rfl).1
  have hpaths : inputPaths lockedFiles ["a.js", "lib", "c.js"] =
      .ok (["a.js"] ++ "lib/b.js" :: ["c.js"]) := by
    decide +kernel
  have hfirst : lockedFiles.read "a.js" = .ok "f(1)" := by decide +kernel
  have hmiddle : lockedFiles.read "lib/b.js" = .ok "f(2)" := by decide +kernel
  have hlast : lockedFiles.read "c.js" = .ok "f(3)" := by decide +kernel
  have hnew : transformed ["f(x) -> g(x)"] "f(1)" = .ok "g(1);\n" := by decide +kernel
  have hother : transformed ["f(x) -> g(x)"] "f(2)" = .ok "g(2);\n" := by decide +kernel
  have hfree : lockedFiles.locate "a.js" = .ok ["a.js"] ∧
      lockedFiles.tree.obstacle? ["a.js"] = none := by decide +kernel
  have hlocked : lockedFiles.locate "lib/b.js" = .ok ["lib", "b.js"] ∧
      lockedFiles.tree.obstacle? ["lib", "b.js"] = some .denied := by decide +kernel
  have hread : ∀ path ∈ ["a.js"] ++ "lib/b.js" :: ["c.js"],
      ∃ text, lockedFiles.read path = .ok text := by
    simp [hfirst, hmiddle, hlast]
  have hrevisable :
      ∀ path ∈ ["a.js"], Revisable lockedFiles (transformed ["f(x) -> g(x)"]) path :=
    List.forall_mem_singleton.mpr ⟨_, _, hfirst, hnew, .inr ⟨_, hfree⟩⟩
  have hstop : ¬ Revisable lockedFiles (transformed ["f(x) -> g(x)"]) "lib/b.js" := by
    rintro ⟨text, new, htext, hrevise, hsame | ⟨location, hlocate, hnone⟩⟩
    · cases hmiddle.symm.trans htext
      cases hother.symm.trans hrevise
      exact absurd hsame (by decide)
    · cases hlocked.1.symm.trans hlocate
      cases hlocked.2.symm.trans hnone
  have hlocations : locations lockedFiles ["a.js"] = [["a.js"]] := by decide +kernel
  obtain ⟨hcode, hbefore, huntouched⟩ := hedits.stopped rfl (by simp [Refused]) ["a.js"] "lib/b.js"
    ["c.js"] hpaths hread hrevisable hstop
  rw [hlocations] at hbefore huntouched
  obtain ⟨text, new, htext, hrevise, hafter⟩ := hbefore ["a.js"] (by simp)
  cases htext
  cases hnew.symm.trans hrevise
  exact ⟨lockedFiles_proper, hedits, hcode, hafter, huntouched ["c.js"] (by simp)⟩

end Graft.Cli
