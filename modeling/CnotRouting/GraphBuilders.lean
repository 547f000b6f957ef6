import CnotRouting.NumberBounds
import CnotRouting.RoutingErrors

/-! # Building coupling graphs

Chains, graphs of listed edges, and the graphs of known devices. A matrix that is too long to be kept
is refused before anything is entered in it. -/

namespace CnotRouting.CouplingGraph

def checkMatrix (size : Nat) : Except RoutingError Unit :=
  if size * size < lengthBound then .ok () else .error .outOfBounds

def buildChain (size : Nat) : Except RoutingError CouplingGraph := do
  checkMatrix size
  return chain size

theorem buildChain_eq_ok {size : Nat} (h : size * size < lengthBound) :
    buildChain size = .ok (chain size) := by
  rw [buildChain, checkMatrix, if_pos h]
  rfl

def buildEdges (size : Nat) (edges : List (Nat × Nat)) : Except RoutingError CouplingGraph := do
  checkMatrix size
  (ofEdges size edges).mapError fun fault => .configuration (.edge fault)

def qx2 : CouplingGraph := ofPairs 5 [(0, 1), (0, 2), (1, 2), (3, 2), (3, 4), (4, 2)]

/-- The five-qubit bow tie QX4, with edges of QX2 reversed. -/
def qx4 : CouplingGraph := ofPairs 5 [(1, 0), (2, 0), (2, 1), (3, 2), (3, 4), (4, 2)]

/-- The sixteen-qubit ladder QX3. -/
def qx3 : CouplingGraph := ofPairs 16
  [(0, 1), (1, 2), (2, 3), (3, 14), (4, 3), (4, 5), (6, 7), (6, 11), (7, 10), (8, 7), (9, 8),
    (9, 10), (11, 10), (12, 5), (12, 11), (12, 13), (13, 4), (13, 14), (15, 0), (15, 14)]

end CnotRouting.CouplingGraph
