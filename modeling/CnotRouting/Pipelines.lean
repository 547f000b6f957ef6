import CnotRouting.CircuitMapping

/-! # Pipelines

A pipeline takes a circuit through passes that share a set of properties. A pass that has nothing to
do is skipped. A pass that fails ends the run and changes nothing; what the passes before it did is
kept. -/

namespace CnotRouting

structure SearchReport where
  cost : Nat
  /-- How many placements the search found. -/
  found : Nat
  strategy : Strategy
  deriving DecidableEq

structure Properties where
  device : Option Device := none
  strategy : Strategy := .standard
  placement : Option Placement := none
  report : Option SearchReport := none
  /-- Whether the lines of the circuit are already the qubits of the device. -/
  placed : Bool := false
  /-- A number kept for the caller. -/
  number : Option Int := none
  /-- A text kept for the caller. -/
  text : Option String := none
  deriving DecidableEq

structure Compilation where
  circuit : Circuit
  properties : Properties
  deriving DecidableEq

inductive Pass where
  | search
  | place
  | expand
  deriving DecidableEq

namespace Pass

def name : Pass → String
  | .search => "AssignmentSearch"
  | .place => "ApplyAssignment"
  | .expand => "CnotExpansion"

def isAnalysis : Pass → Bool
  | .search => true
  | .place | .expand => false

def applies (properties : Properties) : Pass → Bool
  | .search => properties.placement.isNone && properties.device.isSome
  | .place => !properties.placed
  | .expand => properties.device.isSome

/-- What a pass needs, or the error that reports its absence. -/
def demand {α : Type} (e : RoutingError) : Option α → Except RoutingError α
  | some a => .ok a
  | none => .error e

/-- Runs the pass, whether or not it has something to do. -/
def run (x : Compilation) : Pass → Except RoutingError Compilation
  | .search => do
    let d ← demand .missingDevice x.properties.device
    let result ← (Interactions.ofCircuit x.circuit).search d x.properties.strategy
    let best ← demand .missingPlacement result.best?
    let report : SearchReport := ⟨result.cost, result.placements.length, result.strategy⟩
    return { x with
      properties := { x.properties with report := some report, placement := some best } }
  | .place => do
    let d ← demand .missingDevice x.properties.device
    let placement ← demand .missingPlacement x.properties.placement
    let circuit ← placement.apply x.circuit d.size
    return ⟨circuit, { x.properties with placed := true }⟩
  | .expand => do
    let d ← demand .missingDevice x.properties.device
    let circuit ← x.circuit.expand d
    return { x with circuit }

end Pass

/-- Runs passes in order. The error of a pass that fails is returned with what was reached. -/
def runPasses : List Pass → Compilation → Option RoutingError × Compilation
  | [], x => (none, x)
  | pass :: passes, x =>
    if pass.applies x.properties then
      match pass.run x with
      | .ok y => runPasses passes y
      | .error e => (some e, x)
    else runPasses passes x

/-- The passes that map a circuit onto the device, if there is one. -/
def Properties.pipeline (properties : Properties) : List Pass :=
  if properties.device.isSome then [.search, .place, .expand] else []

end CnotRouting
