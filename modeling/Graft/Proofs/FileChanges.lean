import Graft.FileTree
import Graft.Proofs.Subtree
import Graft.Source

/-!
# Changes of files

Writing to a file changes its content and nothing else, and paths lead to the same places before
and after.  Whether a file can be written does not depend on what files hold.  A workspace in which
some files were revised, each from the content it had at the start, stays of this kind when one
more file is.
-/

namespace Graft

namespace FileTree

variable {t t' : FileTree} {location other : Location} {content : String}

theorem lookup_map_replace (files : List (Location × String)) :
    (files.map fun (p, old) => (p, if p = location then content else old)).lookup other =
      (files.lookup other).map fun old => if other = location then content else old := by
  induction files with
  | nil => rfl
  | cons entry rest ih =>
      obtain ⟨p, old⟩ := entry
      rw [List.map_cons, List.lookup_cons, List.lookup_cons, ih]
      by_cases hp : other = p
      · subst hp
        simp
      · simp [beq_false_of_ne hp]

theorem file?_write (t : FileTree) (location other : Location) (content : String) :
    (t.write location content).file? other =
      if other = location then some content else t.file? other := by
  unfold write file?
  by_cases hold : (t.files.lookup location).isSome = true
  · rw [if_pos hold, lookup_map_replace]
    by_cases hother : other = location
    · subst hother
      obtain ⟨old, hold⟩ := Option.isSome_iff_exists.mp hold
      simp [hold]
    · simp [hother]
  · rw [if_neg hold, List.lookup_append]
    rw [Option.not_isSome_iff_eq_none] at hold
    by_cases hother : other = location
    · subst hother
      simp [hold]
    · simp [List.lookup_cons, beq_false_of_ne hother, hother]

theorem isSome_file?_iff :
    (t.file? location).isSome ↔ ∃ content, (location, content) ∈ t.files := by
  constructor
  · intro hsome
    obtain ⟨content, hcontent⟩ := Option.isSome_iff_exists.mp hsome
    exact ⟨content, mem_of_lookup_eq_some hcontent⟩
  · rintro ⟨content, hmem⟩
    cases hfile : t.file? location with
    | some found => rfl
    | none =>
        have habsent := List.lookup_eq_none_iff.mp hfile _ hmem
        simp at habsent

theorem textAt_eq_ok_iff {text : String} :
    t.textAt location = .ok (some text) ↔
      t.unreadable.lookup location = none ∧ t.file? location = some text := by
  unfold textAt
  cases t.unreadable.lookup location with
  | some cause => simp
  | none => simp

/-- A file that could be read before it is written leaves the others as readable as they were. -/
theorem unreadable_write (hreadable : t.unreadable.lookup location = none) (content : String) :
    (t.write location content).unreadable = t.unreadable := by
  apply List.filter_eq_self.mpr
  intro entry hentry
  have hother : location ≠ entry.1 := by
    simpa using List.lookup_eq_none_iff.mp hreadable entry hentry
  simpa using hother.symm

/-- Which locations are directories depends on the places of files, not on their contents. -/
theorem isDirectory_congr
    (hdirectories : t.directories = t'.directories)
    (hfiles : ∀ location, (t.file? location).isSome = (t'.file? location).isSome)
    (location : Location) :
    t.isDirectory location = t'.isDirectory location := by
  have hany : ∀ P : Location → Bool,
      (t.files.any fun (p, _) => P p) = t'.files.any fun (p, _) => P p := by
    intro P
    have hmem : ∀ p, (∃ content, (p, content) ∈ t.files) ↔ ∃ content, (p, content) ∈ t'.files := by
      intro p
      rw [← isSome_file?_iff, ← isSome_file?_iff, hfiles]
    rw [Bool.eq_iff_iff, List.any_eq_true, List.any_eq_true]
    constructor
    · rintro ⟨⟨p, content⟩, hp, htest⟩
      obtain ⟨content', hp'⟩ := (hmem p).mp ⟨content, hp⟩
      exact ⟨_, hp', htest⟩
    · rintro ⟨⟨p, content⟩, hp, htest⟩
      obtain ⟨content', hp'⟩ := (hmem p).mpr ⟨content, hp⟩
      exact ⟨_, hp', htest⟩
  unfold isDirectory
  rw [hdirectories, hany fun p => location.isPrefixOf p && p != location]

end FileTree

namespace Workspace

/-- Two workspaces with the same files and directories, which can be read and written alike.  The
files may hold other texts. -/
structure SamePlaces (w w' : Workspace) : Prop where
  root : w.root = w'.root
  cwd : w.cwd = w'.cwd
  directories : w.tree.directories = w'.tree.directories
  unreadable : w.tree.unreadable = w'.tree.unreadable
  unwritable : w.tree.unwritable = w'.tree.unwritable
  files : ∀ location, (w.tree.file? location).isSome = (w'.tree.file? location).isSome

variable {w w' start : Workspace} {path : String} {location : Location}

theorem SamePlaces.isDirectory (hplaces : w.SamePlaces w') (location : Location) :
    w.tree.isDirectory location = w'.tree.isDirectory location :=
  FileTree.isDirectory_congr hplaces.directories hplaces.files location

theorem SamePlaces.follow
    (hplaces : w.SamePlaces w')
    (names : List String)
    (here : Location) :
    Workspace.follow w.tree here names = Workspace.follow w'.tree here names := by
  induction names generalizing here with
  | nil => rfl
  | cons name rest ih =>
      simp only [Workspace.follow, hplaces.isDirectory here, hplaces.files here, ih]

theorem SamePlaces.locate (hplaces : w.SamePlaces w') (path : String) :
    w.locate path = w'.locate path := by
  unfold Workspace.locate
  simp only [hplaces.root, hplaces.cwd, hplaces.follow]

theorem SamePlaces.obstacle? (hplaces : w.SamePlaces w') (location : Location) :
    w.tree.obstacle? location = w'.tree.obstacle? location := by
  unfold FileTree.obstacle?
  rw [hplaces.unwritable, hplaces.isDirectory]

theorem read_eq_ok_iff {text : String} :
    w.read path = .ok text ↔
      ∃ location, w.locate path = .ok location ∧ w.tree.textAt location = .ok (some text) := by
  unfold Workspace.read
  cases hlocate : w.locate path with
  | error e => simp [bind, Except.bind]
  | ok found =>
      cases htext : w.tree.textAt found with
      | error cause => simp [bind, Except.bind, htext]
      | ok content? => cases content? <;> simp [bind, Except.bind, htext]

/-- A new text can be written to the file at a path. -/
def CanWrite (w : Workspace) (path : String) : Prop :=
  ∃ location, w.locate path = .ok location ∧ w.tree.obstacle? location = none

theorem write_of_free
    (hlocate : w.locate path = .ok location) (hfree : w.tree.obstacle? location = none)
    (content : String) :
    w.write path content = .ok { w with tree := w.tree.write location content } := by
  rw [Workspace.write, hlocate]
  simp only [bind, Except.bind, hfree]

theorem write_of_obstacle
    {cause : FileError}
    (hlocate : w.locate path = .ok location) (hcause : w.tree.obstacle? location = some cause)
    (content : String) :
    w.write path content = .error cause := by
  rw [Workspace.write, hlocate]
  simp only [bind, Except.bind, hcause]

theorem SamePlaces.canWrite_iff (hplaces : w.SamePlaces w') :
    w.CanWrite path ↔ w'.CanWrite path := by
  unfold CanWrite
  simp only [hplaces.locate, hplaces.obstacle?]

/-- Whether a text is written depends on the places alone, not on the text. -/
theorem exists_write_iff {content : String} :
    (∃ after, w.write path content = .ok after) ↔ w.CanWrite path := by
  unfold CanWrite
  cases hlocate : w.locate path with
  | error e => simp [Workspace.write, hlocate, bind, Except.bind]
  | ok found =>
      cases hobstacle : w.tree.obstacle? found with
      | none => simp [write_of_free hlocate hobstacle, hobstacle]
      | some cause => simp [write_of_obstacle hlocate hobstacle, hobstacle]

/-- The file at a location holds what became of its content at the start. -/
def RevisedAt (start : Workspace) (revise : String → Except Failure String) (w : Workspace)
    (location : Location) : Prop :=
  ∃ text new, start.tree.file? location = some text ∧ revise text = .ok new ∧
    w.tree.file? location = some new

/-- The files at the given locations, and no others, were revised. -/
structure Revised (start : Workspace) (revise : String → Except Failure String)
    (locations : List Location) (w : Workspace) : Prop where
  root : w.root = start.root
  cwd : w.cwd = start.cwd
  directories : w.tree.directories = start.tree.directories
  unreadable : w.tree.unreadable = start.tree.unreadable
  unwritable : w.tree.unwritable = start.tree.unwritable
  untouched : ∀ location, location ∉ locations →
    w.tree.file? location = start.tree.file? location
  revised : ∀ location ∈ locations, RevisedAt start revise w location

variable {revise : String → Except Failure String} {locations : List Location}

theorem Revised.refl (w : Workspace) : Revised w revise [] w := by
  refine ⟨rfl, rfl, rfl, rfl, rfl, fun _ _ => rfl, ?_⟩
  simp

theorem Revised.samePlaces (hw : Revised start revise locations w) : w.SamePlaces start := by
  refine ⟨hw.root, hw.cwd, hw.directories, hw.unreadable, hw.unwritable, fun location => ?_⟩
  by_cases hmem : location ∈ locations
  · obtain ⟨text, new, htext, -, hnew⟩ := hw.revised location hmem
    rw [htext, hnew]
    rfl
  · rw [hw.untouched location hmem]

/-- A file that is at one of the locations already has its new content, because it was revised from
the same text. -/
theorem Revised.keep
    (hw : Revised start revise locations w)
    {text : String}
    (htext : start.tree.file? location = some text) (hrevise : revise text = .ok text) :
    Revised start revise (locations ++ [location]) w := by
  have hhere : w.tree.file? location = some text := by
    by_cases hmem : location ∈ locations
    · obtain ⟨text', new, htext', hnew, hfile⟩ := hw.revised location hmem
      cases htext.symm.trans htext'
      cases hrevise.symm.trans hnew
      exact hfile
    · rw [hw.untouched location hmem, htext]
  refine ⟨hw.root, hw.cwd, hw.directories, hw.unreadable, hw.unwritable, fun other hother => ?_,
    fun other hother => ?_⟩
  · exact hw.untouched other fun hmem => hother (List.mem_append_left _ hmem)
  · rcases List.mem_append.mp hother with hmem | hmem
    · exact hw.revised other hmem
    · cases List.mem_singleton.mp hmem
      exact ⟨text, text, htext, hrevise, hhere⟩

theorem Revised.write
    {text new : String}
    (hw : Revised start revise locations w)
    (hlocate : start.locate path = .ok location)
    (htext : start.tree.textAt location = .ok (some text))
    (hrevise : revise text = .ok new)
    (hpath : start.CanWrite path) :
    ∃ w', w.write path new = .ok w' ∧ Revised start revise (locations ++ [location]) w' := by
  obtain ⟨hreadable, hfile⟩ := FileTree.textAt_eq_ok_iff.mp htext
  obtain ⟨found, hfound, hfree⟩ := hpath
  cases hlocate.symm.trans hfound
  refine ⟨{ w with tree := w.tree.write location new }, ?_, hw.root, hw.cwd, hw.directories, ?_,
    hw.unwritable, fun other hother => ?_, fun other hother => ?_⟩
  · exact write_of_free ((hw.samePlaces.locate path).trans hlocate)
      ((hw.samePlaces.obstacle? location).trans hfree) new
  · rw [← hw.unreadable] at hreadable
    exact (FileTree.unreadable_write hreadable new).trans hw.unreadable
  · rw [List.mem_append, List.mem_singleton, not_or] at hother
    rw [FileTree.file?_write, if_neg hother.2]
    exact hw.untouched other hother.1
  · rw [RevisedAt, FileTree.file?_write]
    by_cases hsame : other = location
    · subst hsame
      exact ⟨text, new, hfile, hrevise, if_pos rfl⟩
    · rw [if_neg hsame]
      rcases List.mem_append.mp hother with hmem | hmem
      · exact hw.revised other hmem
      · exact absurd (List.mem_singleton.mp hmem) hsame

end Workspace
end Graft
