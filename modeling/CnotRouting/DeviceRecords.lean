import CnotRouting.Devices
import CnotRouting.RecordFields

/-! # Records of devices

A device is recorded by its graph and its table, each with its own number of qubits. A device taken
over from a record is not checked: its lists may be shorter or longer than its size asks for, and its
costs and routes may be any. -/

namespace CnotRouting

namespace StepKind

def recordName : StepKind → String
  | .move .control .along => "Cab"
  | .move .control .against => "Cba"
  | .move .target .along => "Tab"
  | .move .target .against => "Tba"
  | .undo .control .along => "CabInv"
  | .undo .control .against => "CbaInv"
  | .undo .target .along => "TabInv"
  | .undo .target .against => "TbaInv"
  | .native => "Nop"
  | .flip => "Flip"
  | .cascade => "Cnot3"

def ofRecord? (v : Json) : Option StepKind := do
  let name ← Json.plainAlternative? v
  all.find? (·.recordName == name)

end StepKind

namespace Step

def recordFields : List String := ["kind", "a", "b", "c"]

def record (s : Step) : Json :=
  .obj [("kind", .str s.kind.recordName), ("a", .nat s.a), ("b", .nat s.b),
    ("c", Json.ofOption .nat s.c)]

def ofRecord? (v : Json) : Option Step := do
  return ⟨← StepKind.ofRecord? (← v.fieldOf? recordFields "kind"),
    ← Json.natBelow? wordBound (← v.fieldOf? recordFields "a"),
    ← Json.natBelow? wordBound (← v.fieldOf? recordFields "b"),
    ← Json.optional? (Json.natBelow? wordBound) (← v.nullableFieldOf? recordFields "c")⟩

end Step

namespace Route

def record (r : Route) : Json := .obj [("steps", Json.ofList Step.record r)]

def ofRecord? (v : Json) : Option Route := do
  Json.list? Step.ofRecord? (← v.fieldOf? ["steps"] "steps")

end Route

namespace CouplingGraph

def recordFields : List String := ["num_qubits", "adjacency"]

def record (g : CouplingGraph) : Json :=
  .obj [("num_qubits", .nat g.size), ("adjacency", Json.ofList .bool g.adjacency.toList)]

def ofRecord? (v : Json) : Option CouplingGraph := do
  let size ← Json.natBelow? countBound (← v.fieldOf? recordFields "num_qubits")
  let adjacency ← Json.list? Json.bool? (← v.fieldOf? recordFields "adjacency")
  return ⟨size, adjacency.toArray⟩

end CouplingGraph

namespace RouteTable

def recordFields : List String := ["num_qubits", "costs", "paths"]

def record (t : RouteTable) : Json :=
  .obj [("num_qubits", .nat t.size), ("costs", Json.ofList .nat t.costs.toList),
    ("paths", Json.ofList Route.record t.routes.toList)]

def ofRecord? (v : Json) : Option RouteTable := do
  let size ← Json.natBelow? countBound (← v.fieldOf? recordFields "num_qubits")
  let costs ← Json.list? (Json.natBelow? wordBound) (← v.fieldOf? recordFields "costs")
  let routes ← Json.list? Route.ofRecord? (← v.fieldOf? recordFields "paths")
  return ⟨size, costs.toArray, routes.toArray⟩

end RouteTable

namespace Device

def recordFields : List String := ["graph", "table"]

def record (d : Device) : Json := .obj [("graph", d.graph.record), ("table", d.table.record)]

def ofRecord? (v : Json) : Option Device := do
  return ⟨← CouplingGraph.ofRecord? (← v.fieldOf? recordFields "graph"),
    ← RouteTable.ofRecord? (← v.fieldOf? recordFields "table")⟩

end Device

end CnotRouting
