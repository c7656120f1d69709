import Graft.Json
import Graft.Match.Find

/-!
# The JSON form of matches
-/

namespace Graft

def Step.toJson (step : Step) : Json :=
  .obj [("field", .str step.field.spelling),
    ("index", match step.index with
      | some i => .nat i
      | none => .null)]

def Region.toJson : Region → Json
  | node path => .obj [("type", .str "node"), ("path", .arr (path.map Step.toJson))]
  | run parent field start length =>
    .obj [("type", .str "statements"), ("parent", .arr (parent.map Step.toJson)),
      ("field", .str field.spelling), ("start", .nat start), ("len", .nat length)]

/-- A binding has a name, a value or a count where these make sense. -/
def Binding.toJson (b : Binding) : Json :=
  let optional (key : String) (v : Option Json) : List (String × Json) :=
    (v.map fun v => (key, v)).toList
  .obj ([("kind", .str b.kindName)] ++ optional "name" (b.name?.map .str) ++
    optional "value" (b.value?.map .str) ++ optional "count" (b.count?.map .nat) ++
    [("source", .str b.source)])

def Bindings.toJson (bs : Bindings) : Json :=
  .obj (bs.map fun (name, b) => (name, b.toJson))

def Match.toJson (m : Match) : Json :=
  .obj [("bindings", Bindings.toJson m.bindings), ("span", m.region.toJson),
    ("range", .obj [("start", .nat m.range.1), ("end", .nat m.range.2)])]

end Graft
