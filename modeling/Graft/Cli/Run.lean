import Graft.Check.Json
import Graft.Cli.Arguments
import Graft.Diff.Lines
import Graft.Match.Json
import Graft.Settings
import Graft.Source
import Graft.Text.Position
import Graft.Tree.Json

/-!
# Running a command

A command reads its inputs, works on them one after the other, and writes to its two output
streams or to files.  All inputs are read before the first one is worked on.  What was written
before a failure stays.
-/

namespace Graft.Cli

/-- A failure with its causes, from the outermost to the innermost. -/
structure Trouble where
  headline : String
  causes : List String := []
deriving DecidableEq, Repr, Inhabited

namespace Trouble

/-- Lines of a cause behind a lead of its first line. -/
def causeLines (lead margin cause : String) : String :=
  lead ++ ("\n" ++ margin).intercalate (cause.splitOn "\n") ++ "\n"

/-- Several causes are numbered. -/
def causesText : List String → String
  | [] => ""
  | [cause] => "\nCaused by:\n" ++ causeLines "    " "    " cause
  | causes =>
    "\nCaused by:\n" ++ String.join (causes.zipIdx.map fun (cause, i) =>
      causeLines s!"    {i}: " "       " cause)

def render (t : Trouble) : String :=
  "Error: " ++ t.headline ++ "\n" ++ causesText t.causes

def ofFailure (headline : String) (failure : Failure) : Trouble :=
  let causes := match failure with
    | .malformed _ => []
    | .rule (.malformed side cause) =>
      [RuleError.message (.malformed side cause), cause.message]
    | .rule cause => [cause.message]
    | .edit cause => [cause.message]
  ⟨headline, failure.message :: causes⟩

def ofSettings (e : SettingsError) : Trouble := ⟨e.message, [e.fault.causeMessage]⟩

end Trouble

/-- What a command has done so far. -/
structure Progressed where
  out : String := ""
  err : String := ""
  workspace : Workspace

abbrev Action := ExceptT Trouble (StateM Progressed)

def say (text : String) : Action Unit := modify fun p => { p with out := p.out ++ text }

def warn (text : String) : Action Unit := modify fun p => { p with err := p.err ++ text }

/-- A source text and where it came from. -/
structure Input where
  path : Option String
  text : String
deriving DecidableEq, Repr, Inhabited

def Input.label (input : Input) : String := input.path.getD "<stdin>"

/-- Turns a failure on an input into trouble. -/
def onInput (task : String) (input : Input) (result : Except Failure α) : Action α :=
  match result with
  | .ok a => return a
  | .error failure => throw (.ofFailure s!"Failed to {task} {input.label}" failure)

/-- The files that an operand names: a directory stands for the programs below it. -/
def operandPaths (w : Workspace) (file : String) : Except (String × FileError) (List String) :=
  if w.isDirectory file then w.filesBelow file "js" else .ok [file]

def inputPaths (w : Workspace) (files : List String) : Except (String × FileError) (List String) :=
  List.flatten <$> files.mapM (operandPaths w)

def readInput (path : String) : Action Input := do
  match (← get).workspace.read path with
  | .ok text => return ⟨some path, text⟩
  | .error e => throw ⟨s!"Failed to read {path}", [e.message]⟩

/-- All inputs; standard input if no files are named. -/
def readInputs (stdin : String) (files : List String) : Action (List Input) := do
  if files.isEmpty then return [⟨none, stdin⟩]
  else
    match inputPaths (← get).workspace files with
    | .ok paths => paths.mapM readInput
    | .error (path, e) =>
      throw ⟨s!"IO error for operation on {path}: {e.message}", [e.message]⟩

/-- The settings that are asked for, or those found from the working directory upwards. -/
def loadSettings (explicit : Option String) : Action Settings := do
  let w := (← get).workspace
  match explicit <|> Settings.discover? w w.cwdPath with
  | none => return {}
  | some path =>
    match Settings.load w path with
    | .ok settings => return settings
    | .error e => throw (.ofSettings e)

def checkOutput (files : List String) (output : Output) : Action Unit := do
  if output.write && files.isEmpty then throw ⟨"--write needs file arguments", []⟩
  if output.write && output.diff then throw ⟨"--write and --diff cannot be combined", []⟩

def withNewline (text : String) : String :=
  if text.isEmpty || text.toList.getLast? = some '\n' then text else text ++ "\n"

def diffText (label old new : String) : String :=
  s!"--- {label} (original)\n+++ {label} (rewritten)\n" ++ Diff.render old new

/-- Replaces the content of a file. -/
def writeFile (path content : String) : Action Unit := do
  match (← get).workspace.write path content with
  | .ok w =>
    modify fun p => { p with workspace := w }
    warn s!"✓ {path}\n"
  | .error e => throw ⟨s!"Failed to write {path}", [e.message]⟩

/-- Shows the new text of an input, its difference to the old text, or writes it back.  A file
that does not change is not written. -/
def emit (output : Output) (input : Input) (updated : String) : Action Unit := do
  if output.diff then
    if updated != input.text then say (diffText input.label input.text updated)
  else
    match input.path, output.write with
    | some path, true => if updated != input.text then writeFile path updated
    | _, _ => say updated

def runFormat (stdin : String) (files : List String) (output : Output) : Action Nat := do
  let settings ← loadSettings output.config
  checkOutput files output
  for input in ← readInputs stdin files do
    let formatted ← onInput "format" input (format input.text settings.format)
    emit output input (withNewline formatted)
  return 0

/-- A program that no rule changes stays as it is, also at its end. -/
def runTransform (stdin : String) (files rules : List String) (output : Output) :
    Action Nat := do
  checkOutput files output
  let rules ← if rules.isEmpty then Settings.rules <$> loadSettings output.config else pure rules
  if rules.isEmpty then
    throw ⟨"No rules given: pass --rule or list rules in a config file", []⟩
  for input in ← readInputs stdin files do
    let updated ← onInput "rewrite" input (transformAll input.text rules)
    emit output input (if updated == input.text then updated else withNewline updated)
  return 0

/-- The place of a match, the first line of its source, and its bindings by name. -/
def matchText (input : Input) (m : Match) : String :=
  let (line, column) := Text.lineColumn input.text m.range.1
  let source := String.ofList (Text.firstLine (Text.slice input.text m.range.1 m.range.2))
  let bindings := m.bindings.mergeSort fun a b => decide (a.1 ≤ b.1)
  s!"{input.label}:{line}:{column}: {source}\n" ++
    String.join (bindings.map fun (name, b) => "  " ++ name ++ " = " ++ b.source ++ "\n")

/-- Results of all inputs, each under the name of its file. -/
def jsonText (key : String) (results : List (Input × List Json)) : String :=
  let entry (result : Input × List Json) : Json :=
    .obj [("file", .str result.1.label), (key, .arr result.2)]
  (Json.arr (results.map entry)).sorted.pretty ++ "\n"

/-- Finding nothing counts as a failure. -/
def runSearch (stdin : String) (files : List String) (pattern : String) (json : Bool) :
    Action Nat := do
  let mut results : List (Input × List Match) := []
  for input in ← readInputs stdin files do
    let found ← onInput "search" input (search input.text pattern)
    results := results ++ [(input, found)]
    unless json do say (String.join (found.map (matchText input)))
  let nothing := results.all fun (_, found) => found.isEmpty
  if json then
    say (jsonText "matches" (results.map fun (input, found) => (input, found.map Match.toJson)))
  else if nothing then warn "No matches\n"
  return if nothing then 1 else 0

def diagnosticText (input : Input) (d : Diagnostic) : String :=
  s!"{input.label}:{d.line}:{d.column}: {d.description}\n"

def runValidate (stdin : String) (files : List String) (json : Bool) : Action Nat := do
  let inputs ← readInputs stdin files
  let results := inputs.map fun input => (input, diagnose input.text)
  if json then
    say (jsonText "diagnostics" (results.map fun (input, ds) => (input, ds.map (·.toJson))))
  else
    say (String.join (results.flatMap fun (input, ds) => ds.map (diagnosticText input)))
  return if results.all fun (_, ds) => ds.isEmpty then 0 else 1

def runAst (stdin : String) (files : List String) : Action Nat := do
  for input in ← readInputs stdin files do
    let tree ← onInput "parse" input (readTree input.text)
    say (tree.toJson.pretty ++ "\n")
  return 0

def Command.run (stdin : String) : Command → Action Nat
  | format files output => runFormat stdin files output
  | transform files rules output => runTransform stdin files rules output
  | search files pattern json => runSearch stdin files pattern json
  | validate files json => runValidate stdin files json
  | ast files => runAst stdin files

/-- What is left after a run. -/
structure Outcome where
  code : Nat
  out : String
  err : String
  workspace : Workspace

def usage : String :=
  "Structural search and rewrite for JavaScript\n\n" ++
  "Usage: jsreshape [OPTIONS] <COMMAND>\n\n" ++
  "Commands:\n" ++
  "  format    Reprint sources with the configured style\n" ++
  "  rewrite   Apply rewrite rules\n" ++
  "  search    Find code matching a pattern\n" ++
  "  validate  Report syntax and early errors\n" ++
  "  ast       Print the syntax tree as JSON\n"

/-- Runs the program with its arguments in a workspace. -/
def run (w : Workspace) (stdin : String) (arguments : List String) : Outcome :=
  match Command.ofArguments arguments with
  | .error .help => ⟨0, usage, "", w⟩
  | .error .version => ⟨0, "jsreshape 0.1.0\n", "", w⟩
  | .error .wrong => ⟨2, "", "error: wrong arguments\n\n" ++ usage, w⟩
  | .ok command =>
    match (command.run stdin).run { workspace := w } with
    | (.ok code, p) => ⟨code, p.out, p.err, p.workspace⟩
    | (.error trouble, p) => ⟨1, p.out, p.err ++ trouble.render, p.workspace⟩

end Graft.Cli
