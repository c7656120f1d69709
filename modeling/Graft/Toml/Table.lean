import Graft.Toml.Value

/-!
# Tables of a TOML document

A document is built up line by line.  A table may be defined once by a header, may be implied by
the header of a table below it, or may grow from dotted keys; what is written as one value is
never extended.
-/

namespace Graft.Toml

/-- How a table came about. -/
inductive Origin where
  /-- Only tables below it were given. -/
  | implied
  | header
  | dotted
deriving DecidableEq, Repr

inductive Item where
  | value (value : Value)
  | table (origin : Origin) (entries : List (String × Item))
  | tables (elements : List (List (String × Item)))

abbrev Entries := List (String × Item)

namespace Entries

def put (key : String) (item : Item) : Entries → Entries
  | [] => [(key, item)]
  | (k, old) :: rest => if k = key then (k, item) :: rest else (k, old) :: put key item rest

/-- Changes the table at a path, which is created where it is missing.  A path leads into the
last of several tables of one name, and dotted keys do not reopen the table of a header. -/
def update (dotted : Bool) (change : Origin → Entries → Option Entries) :
    List String → Origin → Entries → Option Entries
  | [], origin, entries => change origin entries
  | key :: path, _, entries =>
    match entries.lookup key with
    | none => do
      let origin := if dotted then Origin.dotted else Origin.implied
      let below ← update dotted change path origin []
      return entries.put key (.table origin below)
    | some (.value _) => none
    | some (.tables elements) => do
      let below ← update dotted change path .header (elements.getLast?.getD [])
      return entries.put key (.tables (elements.dropLast ++ [below]))
    | some (.table origin below) =>
      if dotted && origin = .header then none
      else do
        let below ← update dotted change path origin below
        return entries.put key (.table origin below)

/-- Adds a value under a key that is new. -/
def addNew (key : String) (value : Value) (entries : Entries) : Option Entries :=
  if (entries.lookup key).isSome then none else some (entries.put key (.value value))

/-- Adds a value under a dotted key. -/
def addValue (keys : List String) (value : Value) (entries : Entries) : Option Entries :=
  match keys.getLast?, keys.dropLast with
  | none, _ => none
  | some key, [] => addNew key value entries
  | some key, path =>
    update true (fun origin entries => if origin = .dotted then addNew key value entries else none)
      path .header entries

/-- Opens the table of a header. -/
def addTable (keys : List String) (entries : Entries) : Option Entries :=
  match keys.getLast? with
  | none => none
  | some key =>
    update false (fun _ entries =>
      match entries.lookup key with
      | none => some (entries.put key (.table .header []))
      | some (.table .implied below) => some (entries.put key (.table .header below))
      | some _ => none) keys.dropLast .header entries

/-- Opens one more table of a header in double brackets. -/
def addElement (keys : List String) (entries : Entries) : Option Entries :=
  match keys.getLast? with
  | none => none
  | some key =>
    update false (fun _ entries =>
      match entries.lookup key with
      | none => some (entries.put key (.tables [[]]))
      | some (.tables elements) => some (entries.put key (.tables (elements ++ [[]])))
      | some _ => none) keys.dropLast .header entries

end Entries

mutual

def Item.toValue : Item → Value
  | .value v => v
  | .table _ entries => .table (entryValues entries)
  | .tables elements => .array (elementValues elements)
termination_by structural i => i

def entryValues : List (String × Item) → List (String × Value)
  | [] => []
  | (key, item) :: rest => (key, item.toValue) :: entryValues rest
termination_by structural es => es

def elementValues : List (List (String × Item)) → List Value
  | [] => []
  | entries :: rest => .table (entryValues entries) :: elementValues rest
termination_by structural es => es

end

end Graft.Toml
