import Graft.Text.Blank

/-!
# File trees

The part of a file system that a run of the program sees: files with their content, directories,
and which of them can be read and written.  Locations are lists of names below the root of the
tree; paths are texts as a user writes them, and are looked up from a working directory.
-/

namespace Graft

/-- A location in a file tree, as names from the root down. -/
abbrev Location := List String

inductive FileError where
  | notFound
  | notDirectory
  | isDirectory
  | denied
  | readOnly
  | notText
deriving DecidableEq, Repr, Inhabited

def FileError.message : FileError → String
  | notFound => "No such file or directory (os error 2)"
  | notDirectory => "Not a directory (os error 20)"
  | isDirectory => "Is a directory (os error 21)"
  | denied => "Permission denied (os error 13)"
  | readOnly => "Read-only file system (os error 30)"
  | notText => "stream did not contain valid UTF-8"

structure FileTree where
  files : List (Location × String) := []
  /-- Directories that are there even if they hold no file. -/
  directories : List Location := []
  /-- Files that cannot be opened or hold no text, and directories that cannot be listed.  What such
  a file is said to hold stands for its bytes. -/
  unreadable : List (Location × FileError) := []
  /-- Directories in which no file can be made or replaced. -/
  unwritable : List (Location × FileError) := []
deriving DecidableEq, Repr, Inhabited

namespace FileTree

def file? (t : FileTree) (location : Location) : Option String := t.files.lookup location

/-- The text of a file, or what keeps it from being read. -/
def textAt (t : FileTree) (location : Location) : Except FileError (Option String) :=
  match t.unreadable.lookup location with
  | some cause => .error cause
  | none => .ok (t.file? location)

/-- The root is a directory, and so is every location with something below it. -/
def isDirectory (t : FileTree) (location : Location) : Bool :=
  location.isEmpty || t.directories.any location.isPrefixOf ||
    t.files.any fun (p, _) => location.isPrefixOf p && p != location

/-- The first directory at a location or below it that cannot be listed. -/
def unlisted? (t : FileTree) (location : Location) : Option (Location × FileError) :=
  t.unreadable.find? fun (p, _) => location.isPrefixOf p && t.isDirectory p

/-- Replaces the content of a file.  The new file can be read. -/
def write (t : FileTree) (location : Location) (content : String) : FileTree :=
  { t with
    files :=
      if (t.file? location).isSome then
        t.files.map fun (p, old) => (p, if p = location then content else old)
      else t.files ++ [(location, content)]
    unreadable := t.unreadable.filter fun (p, _) => p ≠ location }

/-- What keeps a file from being replaced.  The new file is made in the directory of the old one and
then moved to its place, so it does not matter whether the old one can be written. -/
def obstacle? (t : FileTree) (location : Location) : Option FileError :=
  (t.unwritable.lookup location.dropLast).or
    (if t.isDirectory location then some .isDirectory else none)

end FileTree

namespace PathText

def splitFrom (name : List Char) : List Char → List String
  | [] => [String.ofList name.reverse]
  | c :: cs =>
    if c = '/' then String.ofList name.reverse :: splitFrom [] cs else splitFrom (c :: name) cs

/-- The names of a path between its slashes, empty ones included. -/
def names (path : String) : List String := splitFrom [] path.toList

/-- A path one name longer. -/
def join (path name : String) : String :=
  if path.isEmpty || path.toList.getLast? = some '/' then path ++ name else path ++ "/" ++ name

/-- Drops names that do not lead anywhere at the end of a path. -/
def trimNames (names : List String) : List String :=
  (names.reverse.dropWhile fun name => name.isEmpty || name = ".").reverse

/-- The names of a path, of which the first stays even if it is a dot. -/
def significantNames : List String → List String
  | [] => []
  | first :: rest => first :: trimNames rest

def ofNames : List String → String
  | [""] => "/"
  | names => "/".intercalate names

/-- The path without its last name. -/
def parent? (path : String) : Option String :=
  match significantNames (names path) with
  | [] => none
  | [name] => if name.isEmpty then none else some ""
  | names => some (ofNames (significantNames names.dropLast))

/-- A path followed by those above it.  The fuel bounds their number. -/
def ancestorsFrom : Nat → String → List String
  | 0, _ => []
  | fuel + 1, path =>
    path :: match parent? path with
      | some above => ancestorsFrom fuel above
      | none => []

def ancestors (path : String) : List String := ancestorsFrom (path.length + 2) path

/-- The name behind the last dot of a file name, unless that dot is its first character. -/
def extension? (name : String) : Option String :=
  let cs := name.toList.reverse
  let ext := cs.takeWhile (· ≠ '.')
  match cs.drop ext.length with
  | _ :: _ :: _ => if name = ".." then none else some (String.ofList ext.reverse)
  | _ => none

end PathText

/-- A file tree seen from a working directory. -/
structure Workspace where
  tree : FileTree := {}
  /-- The path of the root of the tree. -/
  root : String := ""
  cwd : Location := []
deriving DecidableEq, Repr, Inhabited

namespace Workspace

/-- Follows names from a location.  Every name but the last must lead to a directory. -/
def follow (t : FileTree) : Location → List String → Except FileError Location
  | here, [] => .ok here
  | here, name :: rest =>
    if t.isDirectory here then
      if name.isEmpty || name = "." then follow t here rest
      else if name = ".." then
        if here.isEmpty then .error .notFound else follow t here.dropLast rest
      else follow t (here ++ [name]) rest
    else if (t.file? here).isSome then .error .notDirectory
    else .error .notFound

/-- The location that a path leads to. -/
def locate (w : Workspace) (path : String) : Except FileError Location :=
  let cs := path.toList
  if path.isEmpty then .error .notFound
  else if path = w.root then .ok []
  else if (w.root ++ "/").toList.isPrefixOf cs then
    follow w.tree [] (PathText.names (String.ofList (cs.drop w.root.length)))
  else if cs.head? = some '/' then .error .notFound
  else follow w.tree w.cwd (PathText.names path)

def read (w : Workspace) (path : String) : Except FileError String := do
  let location ← w.locate path
  match ← w.tree.textAt location with
  | some content => .ok content
  | none => .error (if w.tree.isDirectory location then .isDirectory else .notFound)

def isDirectory (w : Workspace) (path : String) : Bool :=
  match w.locate path with
  | .ok location => w.tree.isDirectory location
  | .error _ => false

def isFile (w : Workspace) (path : String) : Bool :=
  match w.locate path with
  | .ok location => (w.tree.file? location).isSome
  | .error _ => false

/-- Writes to the file at a path, if the path leads anywhere and nothing is in the way there. -/
def write (w : Workspace) (path content : String) : Except FileError Workspace := do
  let location ← w.locate path
  match w.tree.obstacle? location with
  | some cause => .error cause
  | none => .ok { w with tree := w.tree.write location content }

/-- The path of the working directory. -/
def cwdPath (w : Workspace) : String := w.cwd.foldl PathText.join w.root

/-- Names are compared one by one. -/
def locationLE : Location → Location → Bool
  | [], _ => true
  | _ :: _, [] => false
  | a :: as, b :: bs => if a = b then locationLE as bs else decide (a < b)

/-- The path of a location below another one that has a path. -/
def pathBelow (directory : String) (location below : Location) : String :=
  (below.drop location.length).foldl PathText.join directory

/-- The paths of the files below a directory whose names have an extension, in order; or the path of
a directory there that cannot be listed. -/
def filesBelow (w : Workspace) (directory extension : String) :
    Except (String × FileError) (List String) :=
  match w.locate directory with
  | .error _ => .ok []
  | .ok location =>
    match w.tree.unlisted? location with
    | some (below, cause) => .error (pathBelow directory location below, cause)
    | none =>
      let found := w.tree.files.filterMap fun (p, _) =>
        if location.isPrefixOf p && p != location &&
            p.getLast?.bind PathText.extension? = some extension then
          some p
        else none
      .ok ((found.mergeSort locationLE).map (pathBelow directory location))

end Workspace
end Graft
