/-!
# TOML values

What a TOML document holds.  Of floating point numbers and of dates only the text is kept.
-/

namespace Graft.Toml

inductive Value where
  | string (value : String)
  | integer (value : Int)
  | float (text : String)
  | boolean (value : Bool)
  | date (text : String)
  | array (items : List Value)
  | table (entries : List (String × Value))

namespace Value

/-- The value of a key of a table. -/
def get? : Value → String → Option Value
  | table entries, key => entries.lookup key
  | _, _ => none

end Value
end Graft.Toml
