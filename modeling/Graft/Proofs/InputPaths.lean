import Graft.Cli.Run
import Graft.Proofs.Compile
import Graft.Proofs.FileChanges

/-!
# The inputs of a command

The operands of a command name files, or directories that stand for the programs below them.  The
path that is made for a program below a directory leads back to that program, so the inputs are
exactly the named files and the programs below the named directories, if these can be listed.
-/

namespace Graft

namespace PathText

/-- The name of a file or directory: a path of one step that leads down. -/
def IsName (name : String) : Prop :=
  name ≠ "" ∧ name ≠ "." ∧ name ≠ ".." ∧ '/' ∉ name.toList

instance (name : String) : Decidable (IsName name) :=
  inferInstanceAs (Decidable (name ≠ "" ∧ name ≠ "." ∧ name ≠ ".." ∧ '/' ∉ name.toList))

/-- The characters of a path one name longer. -/
def extend (path name : List Char) : List Char :=
  if path.getLast? = some '/' then path ++ name else path ++ '/' :: name

theorem toList_join {path : String} (hpath : path ≠ "") (name : String) :
    (join path name).toList = extend path.toList name.toList := by
  have hempty : path.isEmpty = false := by simpa [String.isEmpty_iff] using hpath
  unfold join extend
  rw [hempty, Bool.false_or]
  by_cases hlast : path.toList.getLast? = some '/'
  · simp [hlast]
  · simp [hlast]

theorem extend_append
    (front : List Char)
    {path : List Char}
    (hpath : path ≠ [])
    (name : List Char) :
    extend (front ++ path) name = front ++ extend path name := by
  unfold extend
  rw [List.getLast?_append_of_ne_nil front hpath]
  split <;> simp

/-! ## The names of a path -/

theorem splitFrom_append_slash (front rest name : List Char) :
    splitFrom name (front ++ '/' :: rest) = splitFrom name front ++ splitFrom [] rest := by
  induction front generalizing name with
  | nil => simp [splitFrom]
  | cons c front ih =>
      rw [List.cons_append, splitFrom, splitFrom]
      split
      · rw [ih, List.cons_append]
      · exact ih (c :: name)

theorem splitFrom_of_not_mem
    {rest : List Char}
    (hrest : '/' ∉ rest)
    (name : List Char) :
    splitFrom name rest = [String.ofList (name.reverse ++ rest)] := by
  induction rest generalizing name with
  | nil => simp [splitFrom]
  | cons c rest ih =>
      rw [List.mem_cons, not_or] at hrest
      rw [splitFrom, if_neg (Ne.symm hrest.1), ih hrest.2]
      simp

theorem splitFrom_name {name : String} (hname : IsName name) :
    splitFrom [] name.toList = [name] := by
  rw [splitFrom_of_not_mem hname.2.2.2]
  simp

end PathText

open PathText

namespace Workspace

variable {t : FileTree} {w : Workspace} {here location : Location} {path name : String}

theorem follow_append (t : FileTree) (names more : List String) (here : Location) :
    follow t here (names ++ more) = follow t here names >>= fun l => follow t l more := by
  induction names generalizing here with
  | nil => rfl
  | cons first rest ih =>
      simp only [List.cons_append, follow]
      split
      · split
        · exact ih here
        · split
          · split
            · rfl
            · exact ih here.dropLast
          · exact ih (here ++ [first])
      · split <;> rfl

theorem follow_name (hhere : t.isDirectory here = true) (hname : IsName name) :
    follow t here [name] = .ok (here ++ [name]) := by
  obtain ⟨hempty, hdot, hdots, -⟩ := hname
  simp [follow, hhere, hempty, hdot, hdots]

theorem eq_of_follow_empty (hfollow : follow t here [""] = .ok location) : location = here := by
  have hstay : (if t.isDirectory here then .ok here
      else if (t.file? here).isSome then .error .notDirectory
      else .error .notFound : Except FileError Location) = .ok location := hfollow
  split at hstay
  · cases hstay
    rfl
  · split at hstay <;> cases hstay

theorem follow_extend
    {path : List Char}
    (hpath : follow t here (splitFrom [] path) = .ok location)
    (hlocation : t.isDirectory location = true)
    (hname : IsName name) :
    follow t here (splitFrom [] (extend path name.toList)) = .ok (location ++ [name]) := by
  unfold extend
  split
  · next hlast =>
      -- behind the slash at its end the path has one more name, which is empty and leads nowhere
      obtain ⟨front, rfl⟩ := List.getLast?_eq_some_iff.mp hlast
      rw [splitFrom_append_slash, follow_append] at hpath
      obtain ⟨found, hfront, hempty⟩ := bind_eq_ok_iff.mp hpath
      cases eq_of_follow_empty hempty
      rw [List.append_assoc, List.singleton_append, splitFrom_append_slash, follow_append, hfront,
        splitFrom_name hname]
      exact follow_name hlocation hname
  · rw [splitFrom_append_slash, follow_append, hpath, splitFrom_name hname]
    exact follow_name hlocation hname

/-! ## Paths below the root -/

/-- The names of files are names, and the root of the tree has a path that is absolute or a single
word, without a slash at its end. -/
structure Proper (w : Workspace) : Prop where
  names : ∀ location content, (location, content) ∈ w.tree.files → ∀ name ∈ location, IsName name
  root : w.root.toList.head? = some '/' ∨ '/' ∉ w.root.toList
  rootEnd : w.root.toList.getLast? ≠ some '/'

instance (w : Workspace) : Decidable w.Proper :=
  decidable_of_iff ((∀ file ∈ w.tree.files, ∀ name ∈ file.1, IsName name) ∧
      (w.root.toList.head? = some '/' ∨ '/' ∉ w.root.toList) ∧ w.root.toList.getLast? ≠ some '/')
    ⟨fun ⟨hnames, hroot, hend⟩ => ⟨fun location content => hnames (location, content), hroot, hend⟩,
      fun hw => ⟨fun file => hw.names file.1 file.2, hw.root, hw.rootEnd⟩⟩

theorem locate_of_below {rest : List Char} (hpath : path.toList = w.root.toList ++ '/' :: rest) :
    w.locate path = follow w.tree [] (splitFrom [] ('/' :: rest)) := by
  have hempty : path.isEmpty = false := by
    rw [← Bool.not_eq_true, String.isEmpty_iff, ← String.toList_inj, hpath]
    simp
  have hroot : path ≠ w.root := by
    rw [Ne, ← String.toList_inj, hpath]
    simp
  have hprefix : (w.root ++ "/").toList.isPrefixOf path.toList = true := by
    simp [hpath]
  have hdrop : path.toList.drop w.root.length = '/' :: rest := by
    rw [hpath, ← String.length_toList, List.drop_left]
  simp only [locate, hempty, if_neg hroot, hprefix, hdrop, names, String.toList_ofList]
  rfl

theorem locate_of_relative
    (hpath : path ≠ "")
    (hroot : path ≠ w.root)
    (hbelow : ¬ w.root.toList ++ ['/'] <+: path.toList)
    (hhead : path.toList.head? ≠ some '/') :
    w.locate path = follow w.tree w.cwd (splitFrom [] path.toList) := by
  have hempty : path.isEmpty = false := by
    rw [← Bool.not_eq_true, String.isEmpty_iff]
    exact hpath
  have hprefix : (w.root ++ "/").toList.isPrefixOf path.toList = false := by
    rw [← Bool.not_eq_true, List.isPrefixOf_iff_prefix]
    simpa using hbelow
  simp only [locate, hempty, if_neg hroot, hprefix, if_neg hhead, names]
  rfl

/-- A path that leads anywhere is that of the root, continues it, or is relative. -/
theorem locate_cases (hlocate : w.locate path = .ok location) :
    path ≠ "" ∧ (path = w.root ∧ location = [] ∨
      (∃ rest, path.toList = w.root.toList ++ '/' :: rest) ∨
      path ≠ w.root ∧ ¬ w.root.toList ++ ['/'] <+: path.toList ∧
        path.toList.head? ≠ some '/') := by
  unfold locate at hlocate
  dsimp only at hlocate
  split at hlocate
  · cases hlocate
  · next hempty =>
      refine ⟨by simpa [String.isEmpty_iff] using hempty, ?_⟩
      split at hlocate
      · next hroot =>
          cases hlocate
          exact .inl ⟨hroot, rfl⟩
      · next hroot =>
          split at hlocate
          · next hprefix =>
              obtain ⟨rest, hrest⟩ := List.isPrefixOf_iff_prefix.mp hprefix
              exact .inr (.inl ⟨rest, by rw [← hrest]; simp⟩)
          · next hprefix =>
              split at hlocate
              · cases hlocate
              · next hhead =>
                  refine .inr (.inr ⟨hroot, ?_, hhead⟩)
                  rw [List.isPrefixOf_iff_prefix] at hprefix
                  simpa using hprefix

theorem exists_extend_eq (path name : List Char) :
    ∃ tail, extend path name = path ++ tail ∧
      (path.getLast? = some '/' ∨ tail.head? = some '/') := by
  unfold extend
  split
  · next hlast => exact ⟨name, rfl, .inl hlast⟩
  · exact ⟨'/' :: name, rfl, .inr rfl⟩

/-- A relative path does not become one from the root when it gets longer. -/
theorem not_prefix_extend
    {root path : List Char}
    (hroot : root.head? = some '/' ∨ '/' ∉ root)
    (hpath : path ≠ [])
    (hother : path ≠ root)
    (hbelow : ¬ root ++ ['/'] <+: path)
    (hrelative : path.head? ≠ some '/')
    (name : List Char) :
    extend path name ≠ root ∧ ¬ root ++ ['/'] <+: extend path name := by
  obtain ⟨tail, htail, hslash⟩ := exists_extend_eq path name
  rw [htail]
  have hshort : root <+: path ++ tail → root <+: path := by
    intro hlong
    rcases List.prefix_or_prefix_of_prefix hlong (List.prefix_append path tail) with
      hshort | hlonger
    · exact hshort
    -- a root that is longer than the path starts like it, and has the slash behind it
    exfalso
    obtain ⟨more, rfl⟩ := hlonger
    have hmore : more ≠ [] := fun hnil => hother (by simp [hnil])
    rcases hroot with hhead | habsent
    · rw [List.head?_append_of_ne_nil _ hpath] at hhead
      exact hrelative hhead
    · rw [List.mem_append, not_or] at habsent
      rcases hslash with hlast | hhead
      · exact habsent.1 (List.mem_of_getLast? hlast)
      · obtain ⟨rest, hrest⟩ := (List.prefix_append_right_inj path).mp hlong
        rw [← hrest, List.head?_append_of_ne_nil _ hmore] at hhead
        exact habsent.2 (List.mem_of_head? hhead)
  constructor
  · intro heq
    have hle := hshort (heq ▸ List.prefix_rfl)
    have hge : path <+: root := heq ▸ List.prefix_append path tail
    exact hother (hge.eq_of_length_le hle.length_le)
  · intro hlong
    obtain ⟨more, rfl⟩ := hshort ((List.prefix_append root ['/']).trans hlong)
    rw [List.append_assoc, List.prefix_append_right_inj] at hlong
    have hmore : more ≠ [] := fun hnil => hother (by simp [hnil])
    obtain ⟨c, more, rfl⟩ := List.exists_cons_of_ne_nil hmore
    obtain ⟨rest, hrest⟩ := hlong
    cases hrest
    exact hbelow (by simp)

/-- A name behind the path of a directory leads to the place of that name in it. -/
theorem locate_join
    (hw : w.Proper)
    (hlocate : w.locate path = .ok location)
    (hlocation : w.tree.isDirectory location = true)
    (hname : IsName name) :
    w.locate (join path name) = .ok (location ++ [name]) := by
  obtain ⟨hpath, hcases⟩ := locate_cases hlocate
  have htext := toList_join hpath name
  rcases hcases with ⟨rfl, rfl⟩ | ⟨rest, hrest⟩ | ⟨hroot, hbelow, hhead⟩
  · have hjoin : (join w.root name).toList = w.root.toList ++ '/' :: name.toList := by
      rw [htext, extend, if_neg hw.rootEnd]
    have hstart : follow w.tree [] (splitFrom [] []) = .ok [] := rfl
    rw [locate_of_below hjoin]
    exact follow_extend hstart hlocation hname
  · rw [locate_of_below hrest] at hlocate
    have hjoin : (join path name).toList =
        w.root.toList ++ extend ('/' :: rest) name.toList := by
      rw [htext, hrest, extend_append _ (List.cons_ne_nil _ _)]
    obtain ⟨tail, htail, -⟩ := exists_extend_eq ('/' :: rest) name.toList
    rw [htail, List.cons_append] at hjoin
    rw [locate_of_below hjoin, ← List.cons_append, ← htail]
    exact follow_extend hlocate hlocation hname
  · rw [locate_of_relative hpath hroot hbelow hhead] at hlocate
    have hne : path.toList ≠ [] := by simpa using hpath
    obtain ⟨hroot', hbelow'⟩ := not_prefix_extend hw.root hne
      (fun heq => hroot (String.toList_inj.mp heq)) hbelow hhead name.toList
    obtain ⟨tail, htail, -⟩ := exists_extend_eq path.toList name.toList
    have hhead' : (join path name).toList.head? ≠ some '/' := by
      rw [htext, htail, List.head?_append_of_ne_nil _ hne]
      exact hhead
    have hpath' : join path name ≠ "" := by
      rw [Ne, ← String.toList_inj, htext, htail]
      simp [hpath]
    rw [← htext] at hroot' hbelow'
    rw [locate_of_relative hpath' (fun heq => hroot' (congrArg String.toList heq)) hbelow' hhead',
      htext]
    exact follow_extend hlocate hlocation hname

/-! ## Programs below a directory -/

theorem isDirectory_of_append
    {t : FileTree} {location more : Location} {content : String}
    (hmem : (location ++ more, content) ∈ t.files) (hmore : more ≠ []) :
    t.isDirectory location = true := by
  rw [FileTree.isDirectory, Bool.or_eq_true]
  right
  apply List.any_eq_true.mpr
  exact ⟨_, hmem, by simp [hmore]⟩

/-- The path made of the names of a file below a directory leads to that file. -/
theorem locate_foldl_join
    (hw : w.Proper)
    {more : Location} {content : String}
    (hlocate : w.locate path = .ok location) (hmem : (location ++ more, content) ∈ w.tree.files) :
    w.locate (more.foldl join path) = .ok (location ++ more) := by
  induction more generalizing path location with
  | nil =>
      rw [List.append_nil]
      exact hlocate
  | cons name more ih =>
      have hname : IsName name := hw.names _ _ hmem name (by simp)
      have hdirectory := isDirectory_of_append hmem (List.cons_ne_nil name more)
      rw [List.append_cons] at hmem
      rw [List.foldl_cons, List.append_cons]
      exact ih (locate_join hw hlocate hdirectory hname) hmem

theorem pathBelow_append (directory : String) (location more : Location) :
    pathBelow directory location (location ++ more) = more.foldl join directory := by
  rw [pathBelow, List.drop_left]

theorem mem_filesBelow_iff
    {extension found : String} {paths : List String}
    (hlocate : w.locate path = .ok location) (hpaths : w.filesBelow path extension = .ok paths) :
    found ∈ paths ↔
      ∃ more content, (location ++ more, content) ∈ w.tree.files ∧ more ≠ [] ∧
        (location ++ more).getLast?.bind extension? = some extension ∧
        found = more.foldl join path := by
  unfold filesBelow at hpaths
  rw [hlocate] at hpaths
  dsimp only at hpaths
  split at hpaths
  · cases hpaths
  cases hpaths
  simp only [List.mem_map, List.mem_mergeSort, List.mem_filterMap, Option.ite_none_right_eq_some,
    Bool.and_eq_true, List.isPrefixOf_iff_prefix, bne_iff_ne, decide_eq_true_eq, Option.some.injEq]
  constructor
  · rintro ⟨_, ⟨⟨p, content⟩, hmem, ⟨⟨⟨more, rfl⟩, hne⟩, hextension⟩, rfl⟩, rfl⟩
    have hmore : more ≠ [] := fun hnil => hne (by rw [hnil, List.append_nil])
    exact ⟨more, content, hmem, hmore, hextension, pathBelow_append path location more⟩
  · rintro ⟨more, content, hmem, hmore, hextension, rfl⟩
    refine ⟨location ++ more, ⟨⟨location ++ more, content⟩, hmem, ⟨⟨List.prefix_append _ _, ?_⟩,
      hextension⟩, rfl⟩, pathBelow_append path location more⟩
    simpa using hmore

theorem exists_operandPaths
    {operands paths : List String}
    (hpaths : Cli.inputPaths w operands = .ok paths) :
    ∃ named, operands.mapM (Cli.operandPaths w) = .ok named ∧ named.flatten = paths := by
  unfold Cli.inputPaths at hpaths
  cases hmap : operands.mapM (Cli.operandPaths w) with
  | error e =>
      rw [hmap] at hpaths
      cases hpaths
  | ok named =>
      rw [hmap] at hpaths
      cases hpaths
      exact ⟨named, rfl, rfl⟩

theorem mem_inputPaths_iff
    {operands paths : List String}
    (hpaths : Cli.inputPaths w operands = .ok paths) :
    path ∈ paths ↔
      ∃ operand ∈ operands, ∃ named, Cli.operandPaths w operand = .ok named ∧ path ∈ named := by
  obtain ⟨nameds, hnameds, rfl⟩ := exists_operandPaths hpaths
  simp only [List.mem_flatten, mem_iff_of_mapM_eq_ok hnameds]
  constructor
  · rintro ⟨named, ⟨operand, hoperand, hnamed⟩, hpath⟩
    exact ⟨operand, hoperand, named, hnamed, hpath⟩
  · rintro ⟨operand, hoperand, named, hnamed, hpath⟩
    exact ⟨named, ⟨operand, hoperand, hnamed⟩, hpath⟩

/-- The place of an input: of a file that is named, or of a program below a directory that is. -/
def HasInput (w : Workspace) (operands : List String) (location : Location) : Prop :=
  ∃ operand ∈ operands,
    w.isDirectory operand = false ∧ w.locate operand = .ok location ∨
    ∃ directory more, w.locate operand = .ok directory ∧ w.tree.isDirectory directory = true ∧
      location = directory ++ more ∧ more ≠ [] ∧ (w.tree.file? location).isSome ∧
      location.getLast?.bind extension? = some "js"

theorem hasInput_iff
    {operands paths : List String}
    (hw : w.Proper) (hpaths : Cli.inputPaths w operands = .ok paths) :
    w.HasInput operands location ↔ ∃ path ∈ paths, w.locate path = .ok location := by
  simp only [mem_inputPaths_iff hpaths]
  constructor
  · rintro ⟨operand, hoperand, hinput⟩
    obtain ⟨nameds, hnameds, -⟩ := exists_operandPaths hpaths
    obtain ⟨named, hnamed⟩ := exists_of_mapM_eq_ok hnameds operand hoperand
    suffices ∃ path ∈ named, w.locate path = .ok location by
      obtain ⟨path, hpath, hlocate⟩ := this
      exact ⟨path, ⟨operand, hoperand, named, hnamed, hpath⟩, hlocate⟩
    unfold Cli.operandPaths at hnamed
    rcases hinput with ⟨hfile, hlocate⟩ |
      ⟨directory, more, hlocate, hdirectory, rfl, hmore, hsome, hextension⟩
    · rw [hfile] at hnamed
      cases hnamed
      exact ⟨operand, List.mem_singleton_self operand, hlocate⟩
    · have hoperand' : w.isDirectory operand = true := by
        rw [Workspace.isDirectory, hlocate]
        exact hdirectory
      rw [if_pos hoperand'] at hnamed
      obtain ⟨content, hmem⟩ := FileTree.isSome_file?_iff.mp hsome
      refine ⟨more.foldl join operand, ?_, locate_foldl_join hw hlocate hmem⟩
      exact (mem_filesBelow_iff hlocate hnamed).mpr ⟨more, content, hmem, hmore, hextension, rfl⟩
  · rintro ⟨path, ⟨operand, hoperand, named, hnamed, hpath⟩, hlocate⟩
    refine ⟨operand, hoperand, ?_⟩
    unfold Cli.operandPaths at hnamed
    split at hnamed
    · next hdirectory =>
        cases hfound : w.locate operand with
        | error e => simp [Workspace.isDirectory, hfound] at hdirectory
        | ok directory =>
            rw [Workspace.isDirectory, hfound] at hdirectory
            obtain ⟨more, content, hmem, hmore, hextension, rfl⟩ :=
              (mem_filesBelow_iff hfound hnamed).mp hpath
            rw [locate_foldl_join hw hfound hmem] at hlocate
            cases hlocate
            exact .inr ⟨directory, more, rfl, hdirectory, rfl, hmore,
              FileTree.isSome_file?_iff.mpr ⟨content, hmem⟩, hextension⟩
    · next hfile =>
        cases hnamed
        cases List.mem_singleton.mp hpath
        exact .inl ⟨by simpa using hfile, hlocate⟩

end Workspace
end Graft
