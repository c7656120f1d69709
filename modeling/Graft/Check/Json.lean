import Graft.Check.Jump
import Graft.Json

/-!
# The JSON form of diagnostics
-/

namespace Graft

def Diagnostic.toJson (d : Diagnostic) : Json :=
  .obj [("index", .nat d.index), ("lineNumber", .nat d.line), ("column", .nat d.column),
    ("description", .str d.description)]

end Graft
