import CnotRouting.RouteSteps

/-! # Faults of a device text

A device text and an edge list are read token by token. Each fault says what the reader needed and
what it found; an error adds the line it belongs to. -/

namespace CnotRouting

/-- What a number in a device text stands for. -/
inductive Numeral where
  | qubitCount
  | cost
  | routeCost
  | qubit
  deriving DecidableEq

def Numeral.noun : Numeral → String
  | .qubitCount => "qubit count"
  | .cost => "cost"
  | .routeCost => "path cost"
  | .qubit => "qubit index"

inductive MatrixRow where
  | graph
  | cost
  deriving DecidableEq

def MatrixRow.noun : MatrixRow → String
  | .graph => "graph row"
  | .cost => "cost row"

/-- The token `cnot(v,w)` that opens the route of a pair. -/
def routeMarker (v w : Nat) : String := s!"cnot({v},{w})"

inductive Expectation where
  | row (kind : MatrixRow)
  | numeral (role : Numeral)
  | marker (v w : Nat)
  | keyword (word : String)
  | stepOrCost
  deriving DecidableEq

def Expectation.text : Expectation → String
  | .row kind => kind.noun
  | .numeral role => role.noun
  | .marker v w => routeMarker v w
  | .keyword word => s!"'{word}'"
  | .stepOrCost => "step or cost line"

inductive FormatFault where
  | endOfText (needed : Expectation)
  | severalCounts
  | invalidNumeral (role : Numeral) (token : String)
  | tooManyQubits (count limit : Nat)
  | rowLength (kind : MatrixRow) (length size : Nat)
  | invalidMark (token : String)
  | selfLoop (qubit : Nat)
  | diagonalCost (qubit cost : Nat)
  | otherMarker (v w : Nat) (token : String)
  | otherKeyword (word token : String)
  | unknownStep (token : String)
  | qubitOutOfRange (qubit size : Nat)
  | missingEdge (step : Step) (source target : Nat)
  | costOffRow (v w written row : Nat)
  | costOffSteps (v w steps written : Nat)
  | notRealized (v w : Nat)
  | trailingToken (token : String)
  deriving DecidableEq

def FormatFault.message : FormatFault → String
  | .endOfText needed => s!"unexpected end of input, expected {needed.text}"
  | .severalCounts => "expected a single qubit count"
  | .invalidNumeral role token => s!"invalid {role.noun} '{token}'"
  | .tooManyQubits count limit => s!"qubit count {count} exceeds the supported maximum of {limit}"
  | .rowLength kind length size => s!"{kind.noun} has {length} entries, expected {size}"
  | .invalidMark token => s!"invalid adjacency entry '{token}'"
  | .selfLoop qubit => s!"self-loop on qubit {qubit}"
  | .diagonalCost qubit cost => s!"diagonal cost of qubit {qubit} is {cost}, expected 0"
  | .otherMarker v w token => s!"expected marker '{routeMarker v w}', found '{token}'"
  | .otherKeyword word token => s!"expected '{word}', found '{token}'"
  | .unknownStep token => s!"unknown step token '{token}'"
  | .qubitOutOfRange qubit size => s!"qubit {qubit} out of range for {size} qubits"
  | .missingEdge step source target =>
    s!"step '{step.text}' needs missing edge {source} -> {target}"
  | .costOffRow v w written row =>
    s!"cost of {routeMarker v w} is {written}, cost row says {row}"
  | .costOffSteps v w steps written =>
    s!"steps of {routeMarker v w} cost {steps}, file says {written}"
  | .notRealized v w => s!"path does not realize {routeMarker v w}"
  | .trailingToken token => s!"unexpected trailing token '{token}'"

/-- A fault with the number of its line. The first line has number 1. -/
structure FormatError where
  line : Nat
  fault : FormatFault
  deriving DecidableEq

end CnotRouting
