import CnotRouting.Circuits
import CnotRouting.CouplingGraphs
import CnotRouting.FormatFaults

/-! # Errors

Every operation that can fail reports a cause, and `RoutingError.message` words it. The last two
causes arise only where a qubit is asked for that a graph or table does not have, where the lists of
a table are shorter than its size promises, or where a number leaves the range it is kept in. -/

namespace CnotRouting

/-- A value that does not fit the device or the circuit it is meant for. -/
inductive ConfigurationFault where
  | edge (fault : EdgeFault)
  | pairOutOfRange (v w size : Nat)
  | sizesDiffer (graph table : Nat)
  | placementLength (covered width : Nat)
  | siteOutOfRange (site size : Nat)
  | lineOutOfRange (line site size : Nat)
  | siteTaken (site : Nat)
  deriving DecidableEq

def EdgeFault.message : EdgeFault → String
  | .outOfRange source target size => s!"edge ({source}, {target}) out of range for {size} qubits"
  | .selfLoop qubit => s!"self-loop on qubit {qubit}"

def ConfigurationFault.message : ConfigurationFault → String
  | .edge fault => fault.message
  | .pairOutOfRange v w size => s!"pair ({v}, {w}) out of range for {size} qubits"
  | .sizesDiffer graph table => s!"graph has {graph} qubits but table has {table}"
  | .placementLength covered width => s!"assignment covers {covered} qubits, circuit has {width}"
  | .siteOutOfRange site size => s!"physical qubit {site} out of range for {size} qubits"
  | .lineOutOfRange line site size =>
    s!"logical qubit {line} mapped to physical qubit {site}, target has {size}"
  | .siteTaken site => s!"physical qubit {site} assigned twice"

inductive RoutingError where
  /-- A circuit refuses a gate. -/
  | gate (fault : GateFault)
  /-- The bytes of a device text are not valid UTF-8. -/
  | notText
  | format (error : FormatError)
  | configuration (fault : ConfigurationFault)
  | circuitTooLarge (width size : Nat)
  /-- The gate at `position` has no expansion. -/
  | unsupportedGate (position : Nat) (name : String)
  /-- No path of edges joins the two qubits. -/
  | disconnected (v w : Nat)
  | missingDevice
  | missingPlacement
  /-- The pair is not a pair of qubits of the table. -/
  | pairOutsideTable (v w size : Nat)
  /-- A list has no entry at the position that is asked for, or a number is out of its range. -/
  | outOfBounds
  deriving DecidableEq

/-- Whether the cause is a position or number out of bounds, rather than a request that is
refused. -/
def RoutingError.isLookup : RoutingError → Bool
  | .pairOutsideTable _ _ _ | .outOfBounds => true
  | _ => false

def RoutingError.message : RoutingError → String
  | .gate fault => s!"IR error: {fault.message}"
  | .notText => "I/O error: stream did not contain valid UTF-8"
  | .format error => s!"Format error at line {error.line}: {error.fault.message}"
  | .configuration fault => s!"Invalid configuration: {fault.message}"
  | .circuitTooLarge width size =>
    s!"Circuit requires {width} qubits but target only has {size}"
  | .unsupportedGate position name => s!"Unsupported gate '{name}' at position {position}"
  | .disconnected v w => s!"Qubits {v} and {w} are not connected"
  | .missingDevice => "Missing target (connectivity graph and cost table)"
  | .missingPlacement => "Missing qubit assignment"
  | .pairOutsideTable v w size => s!"{routeMarker v w} out of range for a table of {size} qubits"
  | .outOfBounds => "position out of bounds"

end CnotRouting
