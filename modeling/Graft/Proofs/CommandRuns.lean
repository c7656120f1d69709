import Graft.Proofs.InputPaths

/-!
# What a command does to files

The commands that format and transform find and read all their inputs, then work on one after the
other.  Each input that is reached gets the text made of its content at the start; the first one for
which there is no such text, or to which it cannot be written, ends the run.  The invariant of the
loop is that the inputs behind it, and no other files, hold their new texts.
-/

namespace Graft.Cli

open Workspace

section Steps

variable {α β : Type} {x : Action α} {p p' : Progressed}

theorem run_bind_of_ok {f : α → Action β} {a : α} (hx : x.run p = (.ok a, p')) :
    (x >>= f).run p = (f a).run p' := by
  change ExceptT.bindCont f (x.run p).1 (x.run p).2 = _
  rw [hx]
  rfl

theorem run_bind_of_error
    {f : α → Action β} {e : Trouble}
    (hx : x.run p = (.error e, p')) :
    (x >>= f).run p = (.error e, p') := by
  change ExceptT.bindCont f (x.run p).1 (x.run p).2 = _
  rw [hx]
  rfl

theorem run_get_bind (f : Progressed → Action β) (p : Progressed) :
    (get >>= f).run p = (f p).run p := rfl

/-- A step that changes nothing; its answer depends on the workspace alone. -/
def Looks (x : Action α) (answer : Workspace → Except Trouble α) : Prop :=
  ∀ p, x.run p = (answer p.workspace, p)

theorem Looks.bind
    {answer : Workspace → Except Trouble α} {f : α → Action β}
    {next : α → Workspace → Except Trouble β}
    (hx : Looks x answer) (hf : ∀ a, Looks (f a) (next a)) :
    Looks (x >>= f) fun w => answer w >>= fun a => next a w := by
  intro p
  have hrun := hx p
  dsimp only
  cases hanswer : answer p.workspace with
  | ok a =>
      rw [hanswer] at hrun
      rw [run_bind_of_ok hrun, hf a p]
      rfl
  | error e =>
      rw [hanswer] at hrun
      rw [run_bind_of_error hrun]
      rfl

theorem Looks.pure (a : α) : Looks (Pure.pure a : Action α) fun _ => .ok a := fun _ => rfl

theorem Looks.mapM
    {f : α → Action β} {answer : α → Workspace → Except Trouble β}
    (hf : ∀ a, Looks (f a) (answer a))
    (xs : List α) :
    Looks (xs.mapM f) fun w => xs.mapM (answer · w) := by
  induction xs with
  | nil => exact fun _ => rfl
  | cons a xs ih =>
      simp only [List.mapM_cons]
      exact (hf a).bind fun b => ih.bind fun bs => .pure (b :: bs)

end Steps

/-! ## Settings and inputs -/

def settingsFor (w : Workspace) (explicit : Option String) : Except SettingsError Settings :=
  match explicit <|> Settings.discover? w w.cwdPath with
  | none => .ok {}
  | some path => Settings.load w path

theorem looks_loadSettings (explicit : Option String) :
    Looks (loadSettings explicit) fun w => (settingsFor w explicit).mapError .ofSettings := by
  intro p
  unfold loadSettings settingsFor
  rw [run_get_bind]
  dsimp only
  cases explicit <|> Settings.discover? p.workspace p.workspace.cwdPath with
  | none => rfl
  | some path =>
      dsimp only
      cases Settings.load p.workspace path <;> rfl

def inputOf (w : Workspace) (path : String) : Except Trouble Input :=
  ((w.read path).map fun text => ⟨some path, text⟩).mapError fun e =>
    ⟨s!"Failed to read {path}", [e.message]⟩

theorem looks_readInput (path : String) : Looks (readInput path) (inputOf · path) := by
  intro p
  unfold readInput inputOf
  rw [run_get_bind]
  dsimp only
  cases p.workspace.read path <;> rfl

theorem run_readInputs_of_unlisted
    {files : List String} {cause : String × FileError} {p : Progressed}
    (stdin : String)
    (hfiles : files ≠ []) (hpaths : inputPaths p.workspace files = .error cause) :
    ∃ e, (readInputs stdin files).run p = (.error e, p) := by
  obtain ⟨file, files, rfl⟩ := List.exists_cons_of_ne_nil hfiles
  unfold readInputs
  simp only [List.isEmpty_cons, Bool.false_eq_true, if_false]
  rw [run_get_bind, hpaths]
  exact ⟨_, rfl⟩

theorem run_readInputs_of_listed
    {files paths : List String} {p : Progressed}
    (stdin : String)
    (hfiles : files ≠ []) (hpaths : inputPaths p.workspace files = .ok paths) :
    (readInputs stdin files).run p = (paths.mapM (inputOf p.workspace), p) := by
  obtain ⟨file, files, rfl⟩ := List.exists_cons_of_ne_nil hfiles
  unfold readInputs
  simp only [List.isEmpty_cons, Bool.false_eq_true, if_false]
  rw [run_get_bind, hpaths]
  exact Looks.mapM looks_readInput paths p

def Refused (files : List String) (output : Output) : Prop :=
  output.write = true ∧ (files = [] ∨ output.diff = true)

theorem run_checkOutput_of_refused
    {files : List String} {output : Output}
    (hrefused : Refused files output)
    (p : Progressed) :
    ∃ e, (checkOutput files output).run p = (.error e, p) := by
  obtain ⟨hwrite, rfl | hdiff⟩ := hrefused
  · unfold checkOutput
    rw [hwrite]
    exact ⟨_, rfl⟩
  · unfold checkOutput
    rw [hwrite, hdiff]
    cases files <;> exact ⟨_, rfl⟩

theorem run_checkOutput
    {files : List String} {output : Output}
    (hallowed : ¬ Refused files output)
    (p : Progressed) :
    (checkOutput files output).run p = (.ok (), p) := by
  unfold Refused at hallowed
  unfold checkOutput
  cases hwrite : output.write with
  | false => rfl
  | true =>
      rw [hwrite] at hallowed
      simp only [true_and, not_or, Bool.not_eq_true] at hallowed
      obtain ⟨hfiles, hdiff⟩ := hallowed
      rw [hdiff]
      cases files with
      | nil => exact absurd rfl hfiles
      | cons file files => rfl

/-! ## One input -/

/-- Works on one input: its text is revised and emitted. -/
def editing (task : String) (output : Output) (revise : String → Except Failure String)
    (input : Input) : Action Unit := do
  let updated ← onInput task input (revise input.text)
  emit output input updated

def editEach (task : String) (output : Output) (revise : String → Except Failure String) :
    List Input → Action Unit
  | [] => pure ()
  | input :: inputs => do
    editing task output revise input
    editEach task output revise inputs

variable (task : String) {output : Output} {revise : String → Except Failure String}
  {input : Input} {p : Progressed}

theorem run_editing_of_error
    (output : Output)
    {failure : Failure}
    (hrevise : revise input.text = .error failure)
    (p : Progressed) :
    ∃ e, (editing task output revise input).run p = (.error e, p) := by
  unfold editing
  rw [hrevise]
  exact ⟨_, run_bind_of_error rfl⟩

theorem run_editing_of_ok
    {new : String}
    (hrevise : revise input.text = .ok new)
    (p : Progressed) :
    (editing task output revise input).run p = (emit output input new).run p := by
  unfold editing
  rw [hrevise]
  exact run_bind_of_ok rfl

/-- Without the flag for writing, or for a text that came from no file, nothing is written. -/
theorem run_emit_of_dry
    (input : Input)
    (hdry : output.write = false ∨ output.diff = true ∨ input.path = none)
    (new : String) (p : Progressed) :
    ∃ p', (emit output input new).run p = (.ok (), p') ∧ p'.workspace = p.workspace := by
  unfold emit
  cases hdiff : output.diff with
  | true =>
      simp only [if_true]
      split
      · exact ⟨_, rfl, rfl⟩
      · exact ⟨_, rfl, rfl⟩
  | false =>
      simp only [Bool.false_eq_true, if_false]
      cases hpath : input.path with
      | none => exact ⟨_, rfl, rfl⟩
      | some path =>
          have hwrite : output.write = false := by simpa [hdiff, hpath] using hdry
          rw [hwrite]
          exact ⟨_, rfl, rfl⟩

theorem run_emit_of_same
    {path : String}
    (hwrite : output.write = true) (hdiff : output.diff = false) (hpath : input.path = some path)
    (p : Progressed) :
    (emit output input input.text).run p = (.ok (), p) := by
  unfold emit
  rw [hwrite, hdiff, hpath]
  simp only [Bool.false_eq_true, if_false, bne_self_eq_false]
  rfl

theorem run_emit_of_ne
    {path new : String}
    (hwrite : output.write = true)
    (hdiff : output.diff = false)
    (hpath : input.path = some path)
    (hnew : new ≠ input.text) :
    (emit output input new).run p = (writeFile path new).run p := by
  unfold emit
  rw [hwrite, hdiff, hpath]
  have htest : (new != input.text) = true := by simpa using hnew
  simp only [Bool.false_eq_true, if_false, htest, if_true]

theorem run_writeFile_of_ok
    {path new : String} {w : Workspace}
    (hw : p.workspace.write path new = .ok w) :
    ∃ p', (writeFile path new).run p = (.ok (), p') ∧ p'.workspace = w := by
  unfold writeFile
  rw [run_get_bind, hw]
  exact ⟨_, rfl, rfl⟩

theorem run_writeFile_of_error
    {path new : String} {cause : FileError}
    (hcause : p.workspace.write path new = .error cause) :
    ∃ e, (writeFile path new).run p = (.error e, p) := by
  unfold writeFile
  rw [run_get_bind, hcause]
  exact ⟨_, rfl⟩

/-! ## All inputs -/

/-- The file at the path can be read, its text can be revised, and what becomes of it can be
written, unless it is the same text. -/
def Revisable (w : Workspace) (revise : String → Except Failure String) (path : String) : Prop :=
  ∃ text new, w.read path = .ok text ∧ revise text = .ok new ∧ (new = text ∨ w.CanWrite path)

def locations (w : Workspace) (paths : List String) : List Location :=
  paths.filterMap fun path => (w.locate path).toOption

variable {w : Workspace}

theorem mem_locations_iff {paths : List String} {location : Location} :
    location ∈ locations w paths ↔ ∃ path ∈ paths, w.locate path = .ok location := by
  unfold locations
  simp only [List.mem_filterMap, toOption_eq_some_iff]

theorem locations_cons
    {path : String} {location : Location}
    (hlocate : w.locate path = .ok location)
    (paths : List String) :
    locations w (path :: paths) = location :: locations w paths := by
  unfold locations
  rw [List.filterMap_cons, hlocate]
  rfl

theorem inputOf_eq_ok {path : String} (hinput : inputOf w path = .ok input) :
    input.path = some path ∧ w.read path = .ok input.text := by
  unfold inputOf at hinput
  cases hread : w.read path with
  | error e =>
      rw [hread] at hinput
      cases hinput
  | ok text =>
      rw [hread] at hinput
      cases hinput
      exact ⟨rfl, rfl⟩

/-- One input that can be revised takes the invariant one file further. -/
theorem run_editing_of_revised
    {path new : String} {location : Location} {places : List Location}
    (hwrite : output.write = true)
    (hdiff : output.diff = false)
    (hpath : input.path = some path)
    (hlocate : w.locate path = .ok location)
    (htext : w.tree.textAt location = .ok (some input.text))
    (hrevise : revise input.text = .ok new)
    (hcan : new = input.text ∨ w.CanWrite path)
    (hp : Revised w revise places p.workspace) :
    ∃ p', (editing task output revise input).run p = (.ok (), p') ∧
      Revised w revise (places ++ [location]) p'.workspace := by
  rw [run_editing_of_ok task hrevise]
  by_cases hsame : new = input.text
  · subst hsame
    have hfile := (FileTree.textAt_eq_ok_iff.mp htext).2
    exact ⟨p, run_emit_of_same hwrite hdiff hpath p, hp.keep hfile hrevise⟩
  · obtain ⟨w', hw', hrevised⟩ := hp.write hlocate htext hrevise (hcan.resolve_left hsame)
    obtain ⟨p', hrun, hworkspace⟩ := run_writeFile_of_ok hw'
    rw [run_emit_of_ne hwrite hdiff hpath hsame]
    exact ⟨p', hrun, hworkspace ▸ hrevised⟩

/-- Nothing is left of an attempt to write where it is not possible. -/
theorem run_editing_of_unwritten
    {path new : String} {places : List Location}
    (hwrite : output.write = true)
    (hdiff : output.diff = false)
    (hpath : input.path = some path)
    (hrevise : revise input.text = .ok new)
    (hcannot : ¬ (new = input.text ∨ w.CanWrite path))
    (hp : Revised w revise places p.workspace) :
    ∃ e, (editing task output revise input).run p = (.error e, p) := by
  rw [not_or, ← hp.samePlaces.canWrite_iff] at hcannot
  rw [run_editing_of_ok task hrevise, run_emit_of_ne hwrite hdiff hpath hcannot.1]
  cases hresult : p.workspace.write path new with
  | error cause => exact run_writeFile_of_error hresult
  | ok after => exact absurd (exists_write_iff.mp ⟨after, hresult⟩) hcannot.2

theorem run_editing_of_not_revisable
    {path : String} {places : List Location}
    (hwrite : output.write = true)
    (hdiff : output.diff = false)
    (hinput : inputOf w path = .ok input)
    (hnot : ¬ Revisable w revise path)
    (hp : Revised w revise places p.workspace) :
    ∃ e, (editing task output revise input).run p = (.error e, p) := by
  obtain ⟨hpath, hread⟩ := inputOf_eq_ok hinput
  cases hrevise : revise input.text with
  | error failure => exact run_editing_of_error task output hrevise p
  | ok new =>
      refine run_editing_of_unwritten task hwrite hdiff hpath hrevise (fun hcan => ?_) hp
      exact hnot ⟨input.text, new, hread, hrevise, hcan⟩

theorem run_editEach
    {paths : List String} {inputs : List Input} {places : List Location}
    (hwrite : output.write = true)
    (hdiff : output.diff = false)
    (hinputs : List.Forall₂ (fun path input => inputOf w path = .ok input) paths inputs)
    (hp : Revised w revise places p.workspace) :
    (∃ p', (editEach task output revise inputs).run p = (.ok (), p') ∧
      (∀ path ∈ paths, Revisable w revise path) ∧
      Revised w revise (places ++ locations w paths) p'.workspace) ∨
    ∃ e p' before path behind, (editEach task output revise inputs).run p = (.error e, p') ∧
      paths = before ++ path :: behind ∧ (∀ other ∈ before, Revisable w revise other) ∧
      ¬ Revisable w revise path ∧
      Revised w revise (places ++ locations w before) p'.workspace := by
  -- `places` are the files behind the loop; each input that is revised adds its own
  induction hinputs generalizing places p with
  | nil =>
      refine .inl ⟨p, rfl, by simp, ?_⟩
      simpa [locations] using hp
  | @cons path input paths inputs hinput _ ih =>
      rw [editEach]
      by_cases hhere : Revisable w revise path
      · obtain ⟨text, new, hread, hrevise, hcan⟩ := id hhere
        obtain ⟨hpath, hread'⟩ := inputOf_eq_ok hinput
        cases hread'.symm.trans hread
        obtain ⟨location, hlocate, htext⟩ := read_eq_ok_iff.mp hread
        obtain ⟨p', hrun, hp'⟩ :=
          run_editing_of_revised task hwrite hdiff hpath hlocate htext hrevise hcan hp
        rw [run_bind_of_ok hrun]
        rcases ih hp' with ⟨p'', hrest, hall, hrevised⟩ |
          ⟨e, p'', before, failing, behind, hrest, rfl, hbefore, hfailing, hrevised⟩
        · refine .inl ⟨p'', hrest, List.forall_mem_cons.mpr ⟨hhere, hall⟩, ?_⟩
          rw [locations_cons hlocate]
          simpa using hrevised
        · refine .inr ⟨e, p'', path :: before, failing, behind, hrest, rfl,
            List.forall_mem_cons.mpr ⟨hhere, hbefore⟩, hfailing, ?_⟩
          rw [locations_cons hlocate]
          simpa using hrevised
      · obtain ⟨e, hrun⟩ := run_editing_of_not_revisable task hwrite hdiff hinput hhere hp
        -- the run ends in front of this input, with the files of the inputs behind it written
        refine .inr ⟨e, p, [], path, paths, run_bind_of_error hrun, rfl, by simp, hhere, ?_⟩
        simpa [locations] using hp

theorem run_editEach_of_dry
    (revise : String → Except Failure String)
    (hdry : output.write = false ∨ output.diff = true)
    (inputs : List Input) (p : Progressed) :
    ∃ result p', (editEach task output revise inputs).run p = (result, p') ∧
      p'.workspace = p.workspace := by
  induction inputs generalizing p with
  | nil => exact ⟨_, p, rfl, rfl⟩
  | cons input inputs ih =>
      rw [editEach]
      cases hrevise : revise input.text with
      | error failure =>
          obtain ⟨e, hrun⟩ := run_editing_of_error task output hrevise p
          exact ⟨_, p, run_bind_of_error hrun, rfl⟩
      | ok new =>
          obtain ⟨p', hrun, hworkspace⟩ :=
            run_emit_of_dry input (hdry.imp_right .inl) new p
          rw [← run_editing_of_ok task hrevise] at hrun
          obtain ⟨result, p'', hrest, hworkspace'⟩ := ih p'
          exact ⟨result, p'', by rw [run_bind_of_ok hrun, hrest], hworkspace'.trans hworkspace⟩

theorem exists_unread
    {paths : List String} {e : Trouble}
    (hmap : paths.mapM (inputOf w) = .error e) :
    ∃ path ∈ paths, ∃ cause, w.read path = .error cause := by
  obtain ⟨path, hpath, herror⟩ := exists_of_mapM_eq_error hmap
  refine ⟨path, hpath, ?_⟩
  unfold inputOf at herror
  cases hread : w.read path with
  | error cause => exact ⟨cause, rfl⟩
  | ok text =>
      rw [hread] at herror
      cases herror

theorem exists_text
    {paths : List String} {inputs : List Input}
    (hmap : paths.mapM (inputOf w) = .ok inputs) :
    ∀ path ∈ paths, ∃ text, w.read path = .ok text := by
  intro path hpath
  obtain ⟨input, hinput⟩ := exists_of_mapM_eq_ok hmap path hpath
  exact ⟨input.text, (inputOf_eq_ok hinput).2⟩

/-! ## Whole runs -/

/-- Reads all inputs, then works on each. -/
def editAll (task stdin : String) (files : List String) (output : Output)
    (revise : String → Except Failure String) : Action Nat := do
  checkOutput files output
  let inputs ← readInputs stdin files
  editEach task output revise inputs
  return 0

/-- The ways in which such a run ends, with its result and the workspace it leaves. -/
inductive Ending (w : Workspace) (files : List String) (output : Output)
    (revise : String → Except Failure String) : Except Trouble Nat → Workspace → Prop
  | refused (hrefused : Refused files output) (e : Trouble) :
      Ending w files output revise (.error e) w
  | unlisted (cause : String × FileError) (hpaths : inputPaths w files = .error cause)
      (e : Trouble) : Ending w files output revise (.error e) w
  | unread (paths : List String) (hpaths : inputPaths w files = .ok paths) (path : String)
      (hpath : path ∈ paths) (cause : FileError) (hread : w.read path = .error cause)
      (e : Trouble) : Ending w files output revise (.error e) w
  | dry (hdry : output.write = false) (paths : List String)
      (hpaths : inputPaths w files = .ok paths)
      (hread : ∀ path ∈ paths, ∃ text, w.read path = .ok text)
      (result : Except Trouble Nat) : Ending w files output revise result w
  | stopped (hwrite : output.write = true) (hallowed : ¬ Refused files output)
      (before : List String) (path : String) (behind : List String)
      (hpaths : inputPaths w files = .ok (before ++ path :: behind))
      (hread : ∀ other ∈ before ++ path :: behind, ∃ text, w.read other = .ok text)
      (hbefore : ∀ other ∈ before, Revisable w revise other) (hpath : ¬ Revisable w revise path)
      (after : Workspace) (hafter : Revised w revise (locations w before) after) (e : Trouble) :
      Ending w files output revise (.error e) after
  | done (hwrite : output.write = true) (hallowed : ¬ Refused files output) (paths : List String)
      (hpaths : inputPaths w files = .ok paths)
      (hall : ∀ path ∈ paths, Revisable w revise path) (after : Workspace)
      (hafter : Revised w revise (locations w paths) after) :
      Ending w files output revise (.ok 0) after

theorem run_bind_pure
    {α β : Type} {x : Action α} {result : Except Trouble α} {p p' : Progressed}
    (hx : x.run p = (result, p'))
    (b : β) :
    (x >>= fun _ => pure b).run p = (result.map fun _ => b, p') := by
  cases result with
  | ok a => exact run_bind_of_ok hx
  | error e => exact run_bind_of_error hx

theorem run_editAll
    (task stdin : String) (files : List String) (output : Output)
    (revise : String → Except Failure String) (p : Progressed) :
    ∃ result p', (editAll task stdin files output revise).run p = (result, p') ∧
      Ending p.workspace files output revise result p'.workspace := by
  unfold editAll
  by_cases hrefused : Refused files output
  · obtain ⟨e, hcheck⟩ := run_checkOutput_of_refused hrefused p
    exact ⟨.error e, p, run_bind_of_error hcheck, .refused hrefused e⟩
  rw [run_bind_of_ok (run_checkOutput hrefused p)]
  by_cases hfiles : files = []
  · -- the one input is the text of the standard input, and to write is refused without files
    subst hfiles
    have hdry : output.write = false := by simpa [Refused] using hrefused
    have hread : (readInputs stdin []).run p = (.ok [⟨none, stdin⟩], p) := rfl
    obtain ⟨result, p', hrun, hworkspace⟩ := run_editEach_of_dry task revise
      (.inl hdry) [⟨none, stdin⟩] p
    rw [run_bind_of_ok hread, run_bind_pure hrun]
    exact ⟨_, p', rfl, hworkspace ▸ .dry hdry [] rfl (by simp) _⟩
  cases hpaths : inputPaths p.workspace files with
  | error cause =>
      obtain ⟨e, hrun⟩ := run_readInputs_of_unlisted stdin hfiles hpaths
      exact ⟨.error e, p, run_bind_of_error hrun, .unlisted cause hpaths e⟩
  | ok paths =>
      have hlooks := run_readInputs_of_listed stdin hfiles hpaths
      cases hmap : paths.mapM (inputOf p.workspace) with
      | error e =>
          rw [hmap] at hlooks
          obtain ⟨path, hpath, cause, hcause⟩ := exists_unread hmap
          exact ⟨.error e, p, run_bind_of_error hlooks,
            .unread paths hpaths path hpath cause hcause e⟩
      | ok inputs =>
          rw [hmap] at hlooks
          rw [run_bind_of_ok hlooks]
          have hread := exists_text hmap
          cases hwrite : output.write with
          | false =>
              obtain ⟨result, p', hrun, hworkspace⟩ := run_editEach_of_dry task revise
                (.inl hwrite) inputs p
              rw [run_bind_pure hrun]
              exact ⟨_, p', rfl, hworkspace ▸ .dry hwrite paths hpaths hread _⟩
          | true =>
              have hdiff : output.diff = false := by simpa [Refused, hwrite, hfiles] using hrefused
              have hinputs := mapM_eq_ok_iff.mp hmap
              rcases run_editEach task hwrite hdiff hinputs (.refl p.workspace) with
                ⟨p', hrun, hall, hafter⟩ |
                ⟨e, p', before, path, behind, hrun, rfl, hbefore, hpath, hafter⟩
              · rw [run_bind_pure hrun]
                exact ⟨_, p', rfl, .done hwrite hrefused paths hpaths hall _ hafter⟩
              · rw [run_bind_pure hrun]
                exact ⟨_, p', rfl, .stopped hwrite hrefused before path behind hpaths hread hbefore
                  hpath _ hafter e⟩

/-! ## The two commands -/

/-- The new text of an input that is formatted. -/
def formatted (style : Style) (text : String) : Except Failure String :=
  (format text style).map withNewline

/-- The new text of an input to which rules are applied. -/
def transformed (rules : List String) (text : String) : Except Failure String :=
  (transformAll text rules).map fun updated =>
    if updated == text then updated else withNewline updated

/-- The rules of a command: those it is given, or else those of the settings. -/
def rulesFor (w : Workspace) (rules : List String) (explicit : Option String) :
    Option (List String) :=
  let found := if rules.isEmpty then (settingsFor w explicit).toOption.map Settings.rules
    else some rules
  found.filter fun rules => !rules.isEmpty

theorem onInput_map_bind
    {β : Type}
    (task : String) (input : Input) (result : Except Failure String) (finish : String → String)
    (next : String → Action β) :
    (onInput task input (result.map finish) >>= next) =
      onInput task input result >>= fun text => next (finish text) := by
  cases result <;> rfl

theorem forIn_eq_editEach
    {body : Input → Action (ForInStep PUnit)}
    (hbody : ∀ input, body input =
      editing task output revise input >>= fun _ => pure (.yield PUnit.unit))
    (inputs : List Input) :
    (forIn inputs PUnit.unit fun input _ => body input) = editEach task output revise inputs := by
  induction inputs with
  | nil => rfl
  | cons input inputs ih =>
      rw [List.forIn_cons, hbody, bind_assoc, editEach]
      refine bind_congr fun _ => ?_
      rw [pure_bind]
      exact ih

theorem run_loadSettings_of_ok
    {explicit : Option String} {settings : Settings}
    (hsettings : settingsFor p.workspace explicit = .ok settings) :
    (loadSettings explicit).run p = (.ok settings, p) := by
  have hlooks := looks_loadSettings explicit p
  dsimp only at hlooks
  rw [hlooks, hsettings]
  rfl

theorem run_loadSettings_of_error
    {explicit : Option String} {e : SettingsError}
    (hsettings : settingsFor p.workspace explicit = .error e) :
    (loadSettings explicit).run p = (.error (.ofSettings e), p) := by
  have hlooks := looks_loadSettings explicit p
  dsimp only at hlooks
  rw [hlooks, hsettings]
  rfl

theorem run_runFormat
    {stdin : String} {files : List String} {settings : Settings}
    (hsettings : settingsFor p.workspace output.config = .ok settings) :
    (runFormat stdin files output).run p =
      (editAll "format" stdin files output (formatted settings.format)).run p := by
  have hloop : ∀ inputs : List Input, (forIn inputs PUnit.unit fun input _ => do
      let text ← onInput "format" input (format input.text settings.format)
      emit output input (withNewline text)
      pure (ForInStep.yield PUnit.unit)) =
        editEach "format" output (formatted settings.format) inputs :=
    forIn_eq_editEach _ fun input => by rw [editing, formatted, onInput_map_bind, bind_assoc]
  unfold runFormat editAll
  rw [run_bind_of_ok (run_loadSettings_of_ok hsettings)]
  simp only [hloop]

theorem run_runTransform
    {stdin : String} {files rules used : List String}
    (hrules : rulesFor p.workspace rules output.config = some used) :
    (runTransform stdin files rules output).run p =
      (editAll "rewrite" stdin files output (transformed used)).run p := by
  have hloop : ∀ inputs : List Input, (forIn inputs PUnit.unit fun input _ => do
      let updated ← onInput "rewrite" input (transformAll input.text used)
      emit output input (if updated == input.text then updated else withNewline updated)
      pure (ForInStep.yield PUnit.unit)) =
        editEach "rewrite" output (transformed used) inputs :=
    forIn_eq_editEach _ fun input => by rw [editing, transformed, onInput_map_bind, bind_assoc]
  unfold runTransform editAll
  -- flags come before rules here, so they are looked at on both sides first
  by_cases hrefused : Refused files output
  · obtain ⟨e, hcheck⟩ := run_checkOutput_of_refused hrefused p
    rw [run_bind_of_error hcheck, run_bind_of_error hcheck]
  rw [run_bind_of_ok (run_checkOutput hrefused p), run_bind_of_ok (run_checkOutput hrefused p)]
  dsimp only
  unfold rulesFor at hrules
  dsimp only at hrules
  obtain ⟨hfound, hused⟩ := Option.filter_eq_some_iff.mp hrules
  have hempty : used.isEmpty = false := by simpa using hused
  cases hgiven : rules.isEmpty with
  | false =>
      rw [hgiven] at hfound
      cases hfound
      simp only [Bool.false_eq_true, if_false, pure_bind, hempty, hloop]
  | true =>
      rw [hgiven] at hfound
      simp only [if_true] at hfound ⊢
      obtain ⟨settings, hsettings, rfl⟩ := Option.map_eq_some_iff.mp hfound
      have hload : (loadSettings output.config).run p = (.ok settings, p) :=
        run_loadSettings_of_ok (toOption_eq_some_iff.mp hsettings)
      rw [map_eq_pure_bind, bind_assoc, run_bind_of_ok hload]
      simp only [pure_bind, hempty, Bool.false_eq_true, if_false, hloop]

theorem run_runFormat_of_error
    {stdin : String} {files : List String} {e : SettingsError}
    (hsettings : settingsFor p.workspace output.config = .error e) :
    ∃ trouble, (runFormat stdin files output).run p = (.error trouble, p) := by
  unfold runFormat
  exact ⟨_, run_bind_of_error (run_loadSettings_of_error hsettings)⟩

theorem run_runTransform_of_none
    {stdin : String} {files rules : List String}
    (hrules : rulesFor p.workspace rules output.config = none) :
    ∃ trouble, (runTransform stdin files rules output).run p = (.error trouble, p) := by
  unfold runTransform
  by_cases hrefused : Refused files output
  · obtain ⟨e, hcheck⟩ := run_checkOutput_of_refused hrefused p
    exact ⟨e, run_bind_of_error hcheck⟩
  rw [run_bind_of_ok (run_checkOutput hrefused p)]
  unfold rulesFor at hrules
  dsimp only at hrules ⊢
  cases hgiven : rules.isEmpty with
  | false =>
      have hnone : rules = [] := by simpa [hgiven] using hrules
      rw [hnone] at hgiven
      cases hgiven
  | true =>
      simp only [hgiven, if_true] at hrules ⊢
      rw [map_eq_pure_bind, bind_assoc]
      cases hsettings : settingsFor p.workspace output.config with
      | error e => exact ⟨_, run_bind_of_error (run_loadSettings_of_error hsettings)⟩
      | ok settings =>
          have hempty : settings.rules.isEmpty = true := by
            simpa [hsettings, Except.toOption] using hrules
          rw [run_bind_of_ok (run_loadSettings_of_ok hsettings)]
          simp only [pure_bind, hempty, if_true]
          exact ⟨_, rfl⟩

end Graft.Cli
