import CnotRouting.GraphComponents
import CnotRouting.NumberBounds
import CnotRouting.RouteSearch
import CnotRouting.RoutingErrors

/-! # Route tables

A table keeps for every ordered pair of qubits the cheapest route of its CNOT and the cost of that
route, row by row. The pairs on the diagonal have empty routes of cost 0. The pairs are numbered, and
their number is a product that may leave its range: it is then refused, or, where arithmetic is not
checked, wraps around and leaves the last pairs without routes. A table taken over from a record may
also keep shorter lists, or costs that are not those of its routes. -/

namespace CnotRouting

/-- The whole route for the CNOT from `v` to `w`: the cheapest forward part, then its moves taken
back. For `v = w` it is empty. -/
def CouplingGraph.cheapestRoute (g : CouplingGraph) (v w : Nat) : Except RoutingError Route :=
  if g.size ≤ v ∨ g.size ≤ w then .error (.configuration (.pairOutOfRange v w g.size))
  else if v = w then .ok []
  else match g.cheapestForwardPart? .stopAtEdge v w with
    | none => .error (.disconnected v w)
    | some r => .ok r.completed

/-- The product of two numbers of qubits. One that leaves their range is refused. -/
def checkedProduct (a b : Nat) : Except RoutingError Nat :=
  if a * b < wordBound then .ok (a * b) else .error .outOfBounds

/-- The product of two numbers of qubits, brought back to their range without notice. -/
def wrappedProduct (a b : Nat) : Except RoutingError Nat := .ok (a * b % wordBound)

/-- The routes and their costs for the ordered pairs of `size` qubits, row by row. -/
structure RouteTable where
  size : Nat
  costs : Array Nat
  routes : Array Route
  deriving DecidableEq

namespace RouteTable

def ofRoutes (size : Nat) (routes : List Route) : RouteTable :=
  ⟨size, (routes.map Route.cost).toArray, routes.toArray⟩

/-- The table of a weakly connected graph. Of several pairs that no path joins, the first is
reported. The components are kept by `sets`; `product` computes the number of pairs, and the pairs
with numbers below it are given routes. -/
def ofGraphBy (sets : DisjointSets) (product : Nat → Nat → Except RoutingError Nat)
    (g : CouplingGraph) : Except RoutingError RouteTable :=
  match g.firstSeparated? sets with
  | some (v, w) => .error (.disconnected v w)
  | none => do
    let count ← product g.size g.size
    let routes ← (List.range count).mapM fun i => g.cheapestRoute (i / g.size) (i % g.size)
    return ofRoutes g.size routes

def ofGraph (g : CouplingGraph) : Except RoutingError RouteTable :=
  ofGraphBy .labels checkedProduct g

variable (t : RouteTable)

def contains (q : Nat) : Bool := q < t.size

def position (v w : Nat) : Nat := v * t.size + w

def entry {α : Type} (entries : Array α) (v w : Nat) : Except RoutingError α :=
  if t.contains v && t.contains w then
    match entries[t.position v w]? with
    | some a => .ok a
    | none => .error .outOfBounds
  else .error (.pairOutsideTable v w t.size)

def cost (v w : Nat) : Except RoutingError Nat := t.entry t.costs v w

def route (v w : Nat) : Except RoutingError Route := t.entry t.routes v w

/-- Cost and route of a pair, or nothing for a pair outside the table. -/
def get? (v w : Nat) : Except RoutingError (Option (Nat × Route)) :=
  if t.contains v && t.contains w then do
    return some (← t.cost v w, ← t.route v w)
  else return none

/-- The cost of the CNOT from `v` to `w`, and 0 where the table has none. -/
def costAt (v w : Nat) : Nat := t.costs.getD (t.position v w) 0

/-- Whether the table has a cost for the CNOT from `v` to `w`. -/
def hasCost (v w : Nat) : Bool := t.position v w < t.costs.size

/-- Whether every pair of distinct qubits has a cost. Only the last pair may be without, for it lies
on the diagonal. -/
def coversPairs : Bool := t.size * t.size ≤ t.costs.size + 1

/-- Every route off the diagonal with its pair, row by row. -/
def entries : List (Nat × Nat × Route) :=
  t.routes.toList.zipIdx.filterMap fun (r, i) =>
    if i / t.size = i % t.size then none else some (i / t.size, i % t.size, r)

/-- The written form: a row of costs for each control. -/
def text : String :=
  String.join <| (inRows t.size t.costs.toList).map fun row =>
    " ".intercalate (row.map fun c => s!"{c}") ++ "\n"

@[simp] theorem size_ofRoutes (size : Nat) (routes : List Route) :
    (ofRoutes size routes).size = size := rfl

@[simp] theorem routes_ofRoutes (size : Nat) (routes : List Route) :
    (ofRoutes size routes).routes = routes.toArray := rfl

@[simp] theorem costs_ofRoutes (size : Nat) (routes : List Route) :
    (ofRoutes size routes).costs = (routes.map Route.cost).toArray := rfl

theorem cost_eq_costAt {v w c : Nat} (h : t.cost v w = .ok c) : t.costAt v w = c := by
  simp only [cost, entry] at h
  split at h
  · split at h <;> simp_all [costAt]
  · simp at h

end RouteTable

end CnotRouting
