import CnotRouting.CircuitExpansion
import CnotRouting.PlacementSearch

/-! # Mapping of circuits

A circuit is mapped onto a device by searching a placement of its lines, placing it, and expanding
the placed circuit. -/

namespace CnotRouting

/-- A circuit on a device, with the placement that was used and its cost. -/
structure MappedCircuit where
  circuit : Circuit
  placement : Placement
  cost : Nat
  deriving DecidableEq

/-- The circuit on the device, under the first of the placements that the strategy finds. -/
def Circuit.map (c : Circuit) (d : Device) (s : Strategy) : Except RoutingError MappedCircuit := do
  let result ← (Interactions.ofCircuit c).search d s
  match result.best? with
  | none => throw .missingPlacement
  | some placement =>
    let placed ← placement.apply c d.size
    return ⟨← placed.expand d, placement, result.cost⟩

end CnotRouting
