import Graft.Cli.Run

/-!
# The program

Loads the files that the arguments name, runs the command on them, and brings its output and its
changes back to the file system.
-/

namespace Graft.Main

open Cli

/-- The names of an absolute path, with dots taken away. -/
def locationOf (cwd : Location) (path : String) : Location :=
  let names := PathText.names path
  let start := if names.head? = some "" then [] else cwd
  names.foldl (fun here name =>
    if name.isEmpty || name = "." then here
    else if name = ".." then here.dropLast
    else here ++ [name]) start

def pathOf (location : Location) : String := "/" ++ "/".intercalate location

def causeOf : IO.Error → FileError
  | .permissionDenied _ 30 _ => .readOnly
  | .permissionDenied .. => .denied
  | .noFileOrDirectory .. => .notFound
  | .inappropriateType .. => .isDirectory
  | _ => .notText

def addFile (t : FileTree) (location : Location) : IO FileTree := do
  try
    let content ← IO.FS.readFile (pathOf location)
    return { t with files := t.files ++ [(location, content)] }
  catch e =>
    return { t with
      files := t.files ++ [(location, "")]
      unreadable := t.unreadable ++ [(location, causeOf e)] }

/-- Adds a file, or the programs below a directory. -/
partial def addLocation (t : FileTree) (location : Location) : IO FileTree := do
  let path := (← IO.currentDir) / pathOf location
  if ← path.isDir then
    let mut t := { t with directories := t.directories ++ [location] }
    try
      for entry in ← path.readDir do
        let isDirectory ← entry.path.isDir
        if isDirectory || PathText.extension? entry.fileName = some "js" then
          t ← addLocation t (location ++ [entry.fileName])
      return t
    catch e => return { t with unreadable := t.unreadable ++ [(location, causeOf e)] }
  else if ← path.pathExists then addFile t location
  else return t

/-- Whether a file can be made in a directory is found by making one. -/
def addObstacle (t : FileTree) (directory : Location) : IO FileTree := do
  let probe := pathOf (directory ++ [".tmp"])
  try
    IO.FS.withFile probe .writeNew fun _ => pure ()
    IO.FS.removeFile probe
    return t
  catch
    | .alreadyExists .. => return t
    | e => return { t with unwritable := t.unwritable ++ [(directory, causeOf e)] }

/-- The paths of settings files that a command may look at. -/
def settingsPaths (cwdPath : String) (output : Output) : List String :=
  match output.config with
  | some path => [path]
  | none => (PathText.ancestors cwdPath).map fun dir => PathText.join dir Settings.fileName

def pathsOf (cwdPath : String) : Command → List String
  | .format files output => files ++ settingsPaths cwdPath output
  | .transform files _ output => files ++ settingsPaths cwdPath output
  | .search files _ _ => files
  | .validate files _ => files
  | .ast files => files

def writes : Command → Bool
  | .format _ output | .transform _ _ output => output.write
  | .search .. | .validate .. | .ast .. => false

def filesOf : Command → List String
  | .format files _ | .transform files _ _ | .search files _ _ | .validate files _ | .ast files =>
    files

/-- Replaces the content of a file in one step. -/
def replaceFile (location : Location) (content : String) : IO Unit := do
  let temporary := pathOf (location.dropLast ++ [".tmp" ++ location.getLast?.getD ""])
  IO.FS.writeFile temporary content
  IO.FS.rename temporary (pathOf location)

def run (arguments : List String) : IO UInt32 := do
  let cwdPath := toString (← IO.currentDir)
  let cwd := locationOf [] cwdPath
  let command := Command.ofArguments arguments
  let paths := match command with
    | .ok command => pathsOf cwdPath command
    | .error _ => []
  let readsStdin := match command with
    | .ok command => (filesOf command).isEmpty
    | .error _ => false
  let mut tree : FileTree := { directories := [cwd] }
  for path in paths do
    let location := locationOf cwd path
    if (tree.file? location).isNone then tree ← addLocation tree location
  if command.toOption.any writes then
    for directory in (tree.files.map (·.1.dropLast)).eraseDups do
      tree ← addObstacle tree directory
  let stdin ← if readsStdin then (← IO.getStdin).readToEnd else pure ""
  let outcome := Cli.run ⟨tree, "", cwd⟩ stdin arguments
  IO.print outcome.out
  for (location, content) in outcome.workspace.tree.files do
    if tree.file? location != some content then replaceFile location content
  IO.eprint outcome.err
  return outcome.code.toUInt32

end Graft.Main

def main (arguments : List String) : IO UInt32 := Graft.Main.run arguments
