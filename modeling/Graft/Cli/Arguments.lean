/-!
# Command line arguments

The commands of the program with their options and operands.  Options may stand before or behind
operands; the letters of short options may be joined, and a value may follow its option directly
or behind an equals sign.
-/

namespace Graft.Cli

/-- Where the new text of an input goes, and which settings apply. -/
structure Output where
  config : Option String := none
  write : Bool := false
  diff : Bool := false
deriving DecidableEq, Repr, Inhabited

inductive Command where
  | format (files : List String) (output : Output)
  | transform (files rules : List String) (output : Output)
  | search (files : List String) (pattern : String) (json : Bool)
  | validate (files : List String) (json : Bool)
  | ast (files : List String)
deriving DecidableEq, Repr, Inhabited

/-- Why arguments give no command. -/
inductive Stop where
  | wrong
  | help
  | version
deriving DecidableEq, Repr, Inhabited

structure OptionSpec where
  name : String
  short : Option Char := none
  takesValue : Bool := false
  repeats : Bool := false
  acceptsEmpty : Bool := false
deriving DecidableEq, Repr, Inhabited

/-- The options and operands met so far. -/
structure Scanned where
  options : List (String × String) := []
  operands : List String := []
deriving DecidableEq, Repr, Inhabited

namespace Scanned

def has (s : Scanned) (name : String) : Bool := (s.options.lookup name).isSome

def values (s : Scanned) (name : String) : List String :=
  s.options.filterMap fun (n, value) => if n = name then some value else none

/-- Most options may be given only once. -/
def add (s : Scanned) (spec : OptionSpec) (value : String) : Except Stop Scanned :=
  if spec.name = "help" then .error .help
  else if spec.name = "version" then .error .version
  else if !spec.repeats && s.has spec.name then .error .wrong
  else if spec.takesValue && value.isEmpty && !spec.acceptsEmpty then .error .wrong
  else .ok { s with options := s.options ++ [(spec.name, value)] }

/-- An operand is the name of a file and so is not empty. -/
def addOperand (s : Scanned) (operand : String) : Except Stop Scanned :=
  if operand.isEmpty then .error .wrong
  else .ok { s with operands := s.operands ++ [operand] }

end Scanned

/-- What is scanned after one argument, and the option that still waits for its value. -/
abbrev Progress := Scanned × Option OptionSpec

def readLong (specs : List OptionSpec) (s : Scanned) (body : List Char) :
    Except Stop Progress := do
  let name := body.takeWhile (· ≠ '=')
  let some spec := specs.find? fun spec => spec.name = String.ofList name | .error .wrong
  match body.drop name.length, spec.takesValue with
  | _ :: value, true => return (← s.add spec (String.ofList value), none)
  | [], true => return (s, some spec)
  | [], false => return (← s.add spec "", none)
  | _ :: _, false => .error .wrong

def readShort (specs : List OptionSpec) (s : Scanned) : List Char → Except Stop Progress
  | [] => .ok (s, none)
  | c :: cs =>
    match specs.find? fun spec => spec.short = some c with
    | none => .error .wrong
    | some spec =>
      if spec.takesValue then
        match cs with
        | [] => .ok (s, some spec)
        | '=' :: value => do return (← s.add spec (String.ofList value), none)
        | value => do return (← s.add spec (String.ofList value), none)
      else do readShort specs (← s.add spec "") cs

/-- What an argument is by its first characters. -/
inductive Shape where
  | separator
  | long (body : List Char)
  | short (letters : List Char)
  | plain
deriving DecidableEq, Repr

def shape (argument : String) : Shape :=
  match argument.toList with
  | ['-', '-'] => .separator
  | '-' :: '-' :: body => .long body
  | '-' :: c :: letters => .short (c :: letters)
  | _ => .plain

/-- Scans the arguments of a command. -/
def scan (specs : List OptionSpec) : Progress → List String → Except Stop Scanned
  | (s, none), [] => .ok s
  | (_, some _), [] => .error .wrong
  | (s, some spec), argument :: rest =>
    if shape argument = .plain then do scan specs (← s.add spec argument, none) rest
    else .error .wrong
  | (s, none), argument :: rest =>
    match shape argument with
    | .separator => rest.foldlM Scanned.addOperand s
    | .long body => do scan specs (← readLong specs s body) rest
    | .short letters => do scan specs (← readShort specs s letters) rest
    | .plain => do scan specs (← s.addOperand argument, none) rest

/-- Scans the options in front of the name of a command. -/
def scanToCommand (specs : List OptionSpec) (s : Scanned) :
    List String → Except Stop (String × List String)
  | [] => .error .wrong
  | argument :: rest =>
    match shape argument with
    | .separator => .error .wrong
    | .long body => do scanToCommand specs (← readLong specs s body).1 rest
    | .short letters => do scanToCommand specs (← readShort specs s letters).1 rest
    | .plain => .ok (argument, rest)

def verbose : OptionSpec := { name := "verbose", short := some 'v' }
def help : OptionSpec := { name := "help", short := some 'h' }
def version : OptionSpec := { name := "version", short := some 'V' }
def json : OptionSpec := { name := "json" }

def outputOptions : List OptionSpec :=
  [{ name := "config", short := some 'c', takesValue := true },
    { name := "write", short := some 'w' }, { name := "diff", short := some 'd' }]

def rule : OptionSpec :=
  { name := "rule", short := some 'r', takesValue := true, repeats := true,
    acceptsEmpty := true }

def pattern : OptionSpec :=
  { name := "pattern", short := some 'p', takesValue := true, acceptsEmpty := true }

def Scanned.output (s : Scanned) : Output :=
  ⟨s.options.lookup "config", s.has "write", s.has "diff"⟩

/-- The command that arguments ask for. -/
def Command.ofArguments (arguments : List String) : Except Stop Command := do
  let (name, rest) ← scanToCommand [verbose, help, version] {} arguments
  let scanned (specs : List OptionSpec) := scan ([verbose, help] ++ specs) ({}, none) rest
  match name with
  | "format" =>
    let s ← scanned outputOptions
    return .format s.operands s.output
  | "rewrite" =>
    let s ← scanned (rule :: outputOptions)
    return .transform s.operands (s.values "rule") s.output
  | "search" =>
    let s ← scanned [pattern, json]
    match s.options.lookup "pattern" with
    | some p => return .search s.operands p (s.has "json")
    | none => .error .wrong
  | "validate" =>
    let s ← scanned [json]
    return .validate s.operands (s.has "json")
  | "ast" =>
    let s ← scanned []
    return .ast s.operands
  | "help" => .error .help
  | _ => .error .wrong

end Graft.Cli
