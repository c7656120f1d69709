import Graft.Json
import Graft.Tree.Node

/-!
# The JSON form of a tree

An object holds the kind of the node as `type`, then its slots in order, then its byte range.
-/

namespace Graft

/-- A number without a value is written as its text. -/
def Scalar.toJson : Scalar → Json
  | .text s | .str s | .regex s => .str s
  | .num (some x) _ => .float x
  | .num none raw => .str raw
  | .bool b => .bool b
  | .null => .null

mutual

def Node.toJson : Node → Json
  | .mk kind span slots =>
    .obj (("type", .str kind.name) :: slotsToJson slots ++
      [("range", .arr [.nat span.start, .nat span.stop])])
termination_by structural n => n

def Slot.toJson : Slot → Json
  | .node n => n.toJson
  | .list ns => .arr (nodesToJson ns)
  | .absent => .null
  | .scalar s => s.toJson
termination_by structural s => s

def slotsToJson : List (Field × Slot) → List (String × Json)
  | [] => []
  | (field, slot) :: rest => (field.spelling, slot.toJson) :: slotsToJson rest
termination_by structural ss => ss

def nodesToJson : List Node → List Json
  | [] => []
  | n :: rest => n.toJson :: nodesToJson rest
termination_by structural ns => ns

end

end Graft
