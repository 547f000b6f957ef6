import CnotRouting.RouteTables

/-! # Devices

A device is a coupling graph with the route table of its pairs. Both count the same qubits, except
in a device taken over from a record; the size of a device is that of its graph. -/

namespace CnotRouting

structure Device where
  graph : CouplingGraph
  table : RouteTable
  deriving DecidableEq

namespace Device

def size (d : Device) : Nat := d.graph.size

/-- The device of a graph, with the table of its cheapest routes. -/
def ofGraphBy (sets : DisjointSets) (product : Nat → Nat → Except RoutingError Nat)
    (g : CouplingGraph) : Except RoutingError Device := do
  return ⟨g, ← RouteTable.ofGraphBy sets product g⟩

/-- The device of a graph where arithmetic is checked. -/
def ofGraph (g : CouplingGraph) : Except RoutingError Device := ofGraphBy .labels checkedProduct g

/-- The device of a graph where arithmetic is not checked. -/
def ofGraphWrapped (g : CouplingGraph) : Except RoutingError Device :=
  ofGraphBy .labels wrappedProduct g

def ofParts (g : CouplingGraph) (t : RouteTable) : Except RoutingError Device :=
  if g.size = t.size then .ok ⟨g, t⟩
  else .error (.configuration (.sizesDiffer g.size t.size))

/-- The edges of the graph, row by row. A record of no qubits has no rows to count edges by. -/
def edges (d : Device) : Except RoutingError (List (Nat × Nat)) :=
  if d.graph.size = 0 ∧ d.graph.edgeCount ≠ 0 then .error .outOfBounds else .ok d.graph.edges

/-- The routes of the table by their pairs, row by row. A record of no qubits has no rows to count
routes by. -/
def routes (d : Device) : Except RoutingError (List (Nat × Nat × Route)) :=
  if d.table.size = 0 ∧ d.table.routes.size ≠ 0 then .error .outOfBounds
  else .ok d.table.entries

end Device

end CnotRouting
