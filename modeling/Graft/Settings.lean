import Graft.FileTree
import Graft.Print.Style
import Graft.Rule.Basic
import Graft.Toml.Document

/-!
# Settings

A settings file gives the style of formatted programs and a list of rules.  Keys it does not know
are left alone.  Every rule must compile.
-/

namespace Graft

structure Settings where
  format : Style := {}
  rules : List String := []
deriving DecidableEq, Repr, Inhabited

/-- What is wrong with a rule of a settings file. -/
inductive RuleIssue where
  | emptyRule (index : Nat)
  | invalidRule (index : Nat) (rule : String) (cause : RuleError)
deriving DecidableEq, Repr, Inhabited

def RuleIssue.message : RuleIssue → String
  | emptyRule index => s!"rules[{index}] is empty"
  | invalidRule index rule cause =>
    s!"rules[{index}] '{rule}' does not compile: " ++ cause.message

inductive SettingsFault where
  | unreadable (cause : FileError)
  /-- Not a TOML document. -/
  | notToml
  /-- A value of the wrong type. -/
  | wrongType (key : String)
  | invalid (issues : List RuleIssue)
deriving DecidableEq, Repr, Inhabited

namespace SettingsFault

def causeMessage : SettingsFault → String
  | unreadable cause => cause.message
  | notToml => "not a TOML document"
  | wrongType key => s!"wrong type of value for '{key}'"
  | invalid issues => "\n".intercalate (issues.map RuleIssue.message)

def headline : SettingsFault → String
  | unreadable _ => "cannot read config: "
  | notToml | wrongType _ => "invalid TOML: "
  | invalid _ => "invalid config: "

end SettingsFault

/-- A fault and the file it was found in, if there is one. -/
structure SettingsError where
  path : Option String
  fault : SettingsFault
deriving DecidableEq, Repr, Inhabited

def SettingsError.message (e : SettingsError) : String :=
  let place := match e.path with
    | some path => path ++ ": "
    | none => ""
  place ++ e.fault.headline ++ e.fault.causeMessage

/-- A choice is written as its name, or as a table with its name as the only key and nothing in
it. -/
def Toml.Value.choice? : Toml.Value → Option String
  | .string s => some s
  | .table [(key, .table [])] => some key
  | .table [(key, .array [])] => some key
  | _ => none

def QuoteStyle.ofValue? (v : Toml.Value) : Option QuoteStyle :=
  match v.choice? with
  | some "single" => some .single
  | some "double" => some .double
  | _ => none

def Toml.Value.nat? : Toml.Value → Option Nat
  | .integer (.ofNat n) => some n
  | _ => none

def Toml.Value.bool? : Toml.Value → Option Bool
  | .boolean b => some b
  | _ => none

def Toml.Value.strings? : Toml.Value → Option (List String)
  | .array items => items.mapM fun item =>
    match item with
    | .string s => some s
    | _ => none
  | _ => none

/-- Reads one field; a field that is not given keeps its default. -/
def readField (get? : String → Option Toml.Value) (key : String) (missing : α)
    (read? : Toml.Value → Option α) : Except SettingsFault α :=
  match get? key with
  | none => .ok missing
  | some v =>
    match read? v with
    | some a => .ok a
    | none => .error (.wrongType key)

namespace Style

/-- The keys of a style in the order in which a list gives them. -/
def keys : List String := ["indent", "use_tabs", "quotes", "function_space"]

def ofFields (get? : String → Option Toml.Value) : Except SettingsFault Style := do
  let style : Style := {}
  let indent ← readField get? "indent" style.indent Toml.Value.nat?
  let useTabs ← readField get? "use_tabs" style.useTabs Toml.Value.bool?
  let quotes ← readField get? "quotes" style.quotes QuoteStyle.ofValue?
  let functionSpace ← readField get? "function_space" style.functionSpace Toml.Value.bool?
  return ⟨indent, useTabs, quotes, functionSpace⟩

/-- A style is given as a table, or as a list of the values of its keys. -/
def ofValue (v : Toml.Value) : Except SettingsFault Style :=
  match v with
  | .table entries => ofFields fun key => entries.lookup key
  | .array items => ofFields fun key => (keys.zip items).lookup key
  | _ => .error (.wrongType "format")

end Style

namespace Settings

def ofValue (v : Toml.Value) : Except SettingsFault Settings := do
  let format ← match v.get? "format" with
    | some v => Style.ofValue v
    | none => .ok {}
  let rules ← readField v.get? "rules" [] Toml.Value.strings?
  return ⟨format, rules⟩

/-- What is wrong with the rule at a position. -/
def issue? (index : Nat) (rule : String) : Option RuleIssue :=
  if (Text.trim rule).isEmpty then some (.emptyRule index)
  else
    match Rule.compile rule with
    | .ok _ => none
    | .error cause => some (.invalidRule index rule cause)

def issues (s : Settings) : List RuleIssue :=
  s.rules.zipIdx.filterMap fun (rule, index) => issue? index rule

/-- Reads the text of a settings file. -/
def parse (text : String) : Except SettingsFault Settings := do
  let some v := Toml.parse? text | .error .notToml
  let settings ← ofValue v
  if settings.issues.isEmpty then return settings else .error (.invalid settings.issues)

def load (w : Workspace) (path : String) : Except SettingsError Settings :=
  let result := (w.read path).mapError SettingsFault.unreadable >>= parse
  result.mapError fun fault => ⟨some path, fault⟩

def fileName : String := ".jsreshape.toml"

/-- The path of the nearest settings file, from a directory upwards. -/
def discover? (w : Workspace) (start : String) : Option String :=
  ((PathText.ancestors start).map fun directory => PathText.join directory fileName).find?
    w.isFile

end Settings
end Graft
