import CnotRouting.Proofs.MappingFailures
import CnotRouting.Proofs.RepeatedRuns

/-!
# Circuits in turn

A pipeline is run on several circuits, one after another, and each run passes its properties on.
The search is run until it finds a placement for the first time. Up to that circuit every run is
what it would be on its own. The placement stays in the properties from there on: it serves every
circuit that follows until one has been placed by it, and all circuits after that one are expanded
where they are.
-/

namespace CnotRouting

/-- The run of the pipeline of a device on a circuit, with the given properties. -/
def Properties.compile (properties : Properties) (c : Circuit) :
    Option RoutingError × Compilation :=
  runPasses [.search, .place, .expand] ⟨c, properties⟩

/-- The properties that are left when circuits have been compiled one after another, each with the
properties that the one before it left. -/
def Properties.after (properties : Properties) (earlier : List Circuit) : Properties :=
  earlier.foldl (fun properties c => (properties.compile c).2.properties) properties

/-- The properties once a search has found a placement, where `placed` tells whether a circuit has
been placed by it. -/
def SearchResult.settled (result : SearchResult) (d : Device) (s : Strategy) (p : Placement)
    (placed : Bool) : Properties :=
  { result.recorded (.forDevice d s) p with placed }

variable {d : Device} {s : Strategy} {c : Circuit} {result : SearchResult} {p : Placement}

/-! ### One circuit -/

namespace SearchResult

end SearchResult

namespace Properties

end Properties

end CnotRouting
