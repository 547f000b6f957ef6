import CnotRouting.CouplingGraphs

/-! # Weak components of a coupling graph

Two qubits are weakly connected when a path joins them that may use edges in either direction. A
disjoint-set structure keeps the components: it joins the classes of the ends of every edge. Nothing
but its answers matters. In the structure defined here each element carries a label; a union gives
both classes of labels the smaller of the two, so that an element is labelled by the smallest one of
its class. -/

namespace CnotRouting

/-- Classes of the numbers below a bound, each of which starts in a class of its own. -/
structure DisjointSets where
  State : Type
  new : Nat → State
  union : State → Nat → Nat → State
  /-- Whether two numbers are in one class. -/
  equiv : State → Nat → Nat → Bool

/-- Joins the classes of `v` and `w` under the smaller of their labels. -/
def joinLabels (labels : List Nat) (v w : Nat) : List Nat :=
  let a := labels.getD v v
  let b := labels.getD w w
  labels.map fun l => if l = max a b then min a b else l

namespace DisjointSets

def unions (sets : DisjointSets) (n : Nat) (pairs : List (Nat × Nat)) : sets.State :=
  pairs.foldl (fun state p => sets.union state p.1 p.2) (sets.new n)

/-- Classes told apart by their smallest elements. -/
def labels : DisjointSets where
  State := List Nat
  new := List.range
  union := joinLabels
  equiv labels v w := labels.getD v v == labels.getD w w

end DisjointSets

namespace CouplingGraph

def components (sets : DisjointSets) (g : CouplingGraph) : sets.State := sets.unions g.size g.edges

/-- For each qubit the smallest qubit of its weak component. -/
def componentLabels (g : CouplingGraph) : List Nat := g.components .labels

def isWeaklyConnected (sets : DisjointSets) (g : CouplingGraph) : Bool :=
  let components := g.components sets
  (List.range' 1 (g.size - 1)).all fun q => sets.equiv components 0 q

/-- The first ordered pair of qubits that lie in different components, row by row. -/
def firstSeparated? (sets : DisjointSets) (g : CouplingGraph) : Option (Nat × Nat) :=
  let components := g.components sets
  (List.range g.size).findSome? fun v =>
    ((List.range g.size).find? fun w => !sets.equiv components v w).map fun w => (v, w)

end CouplingGraph

end CnotRouting
