import CnotRouting.TokenReading

/-! # Edge lists

An edge list is a number of qubits followed by pairs of distinct qubits, one pair for each edge, in
any layout and with any repetitions. -/

namespace CnotRouting

/-- Reads pairs of qubits up to the end of the tokens. A pair of equal qubits is blamed on the line
of the second one. -/
def readEdges (last size : Nat) : List Token → Except FormatError (List (Nat × Nat))
  | [] => .ok []
  | [t] => do
    let _ ← t.qubit size
    throw ⟨last, .endOfText (.numeral .qubit)⟩
  | t :: u :: rest => do
    let v ← t.qubit size
    let w ← u.qubit size
    require (v ≠ w) u.line (.selfLoop v)
    let more ← readEdges last size rest
    return (v, w) :: more

namespace CouplingGraph

def parseEdgeList (text : String) : Except FormatError CouplingGraph := do
  let rows := textRows text
  let last := lastLine rows
  let (line, size, tokens) ← takeNumeral last .qubitCount (rowTokens rows)
  require (size ≤ sizeLimit) line (.tooManyQubits size sizeLimit)
  let edges ← readEdges last size tokens
  return .ofPairs size edges

def loadEdgeList (bytes : ByteArray) : Except RoutingError CouplingGraph := do
  let text ← decodeText bytes
  (parseEdgeList text).mapError .format

end CouplingGraph

end CnotRouting
