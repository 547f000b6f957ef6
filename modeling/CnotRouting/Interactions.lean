import CnotRouting.Circuits
import CnotRouting.RouteTables

/-! # Interactions of a circuit

The interactions of a circuit are the pairs of control and target of its CNOTs, in program order.
They are all that the cost of a placement depends on. -/

namespace CnotRouting

/-- Control and target of a NOT under exactly one control. -/
def Gate.cnotPair? (g : Gate) : Option (Nat × Nat) :=
  match g.kind, g.controls, g.targets with
  | .toffoli, [c], t :: _ => some (c.line, t)
  | _, _, _ => none

/-- The CNOT pairs of a circuit of `width` lines, in program order. -/
structure Interactions where
  width : Nat
  pairs : List (Nat × Nat)
  deriving DecidableEq

def touches (q : Nat) (pair : Nat × Nat) : Bool := pair.1 == q || pair.2 == q

namespace Interactions

def ofCircuit (c : Circuit) : Interactions := ⟨c.width, c.gates.filterMap Gate.cnotPair?⟩

variable (i : Interactions)

def count (control target : Nat) : Nat := i.pairs.count (control, target)

/-- How many pairs have the line as an end. -/
def incidence (q : Nat) : Nat := i.pairs.countP (touches q)

/-- Each pair with its number of occurrences, in increasing order. -/
def counts : List (Nat × Nat × Nat) :=
  let before : Nat × Nat → Nat × Nat → Bool := fun p q => p.1 < q.1 || (p.1 == q.1 && p.2 ≤ q.2)
  (i.pairs.eraseDups.mergeSort before).map fun p => (p.1, p.2, i.count p.1 p.2)

def pairCost (t : RouteTable) (site : Nat → Nat) (pair : Nat × Nat) : Nat :=
  t.costAt (site pair.1) (site pair.2)

/-- The cost of all pairs when line `q` stands on `site q`. -/
def placedCost (t : RouteTable) (site : Nat → Nat) : Nat :=
  totalCost (i.pairs.map (pairCost t site))

def incidentCost (t : RouteTable) (site : Nat → Nat) (q : Nat) : Nat :=
  totalCost ((i.pairs.filter (touches q)).map (pairCost t site))

/-- Whether the table has a cost for every pair when line `q` stands on `site q`. -/
def isPriced (t : RouteTable) (site : Nat → Nat) : Bool :=
  i.pairs.all fun pair => t.hasCost (site pair.1) (site pair.2)

end Interactions

end CnotRouting
