import CnotRouting.Circuits

/-! # Depth and counts of a circuit

The depth is the length of the longest chain of gates in program order whose neighbours share a
line. It is computed in one pass: each line remembers the level of the last gate on it, and a gate
lies one level above the highest of its lines. -/

namespace CnotRouting

/-- Counts the occurrences of each value, in order of first occurrence. -/
def tally {α : Type} [BEq α] (values : List α) : List (α × Nat) :=
  values.eraseDups.map fun a => (a, values.count a)

namespace Circuit

def levelAbove (levels : Array Nat) (g : Gate) : Nat :=
  (g.lines.map fun q => levels.getD q 0).foldl max 0 + 1

/-- Places a gate: its lines take its level, and the depth grows to that level if it was lower. -/
def placeGate (state : Array Nat × Nat) (g : Gate) : Array Nat × Nat :=
  let level := levelAbove state.1 g
  (g.lines.foldl (fun levels q => levels.setIfInBounds q level) state.1, max state.2 level)

/-- The length of the longest chain of gates whose neighbours share a line. -/
def depth (c : Circuit) : Nat :=
  (c.gates.foldl placeGate (Array.replicate c.width 0, 0)).2

def cnotCount (c : Circuit) : Nat := c.gates.countP Gate.isCnot

def nameCounts (c : Circuit) : List (String × Nat) := tally (c.gates.map Gate.name)

end Circuit

end CnotRouting
