import CnotRouting.CouplingGraphs
import CnotRouting.FirstBest
import CnotRouting.Routes
import CnotRouting.RoutingErrors

/-! # Search for the cheapest route

The search looks for the forward part of a route from a position `(v, w)` of control and target. If
an edge joins `v` and `w` the CNOT can be applied there. The control or the target can also be
carried over an edge to a qubit that has not been visited yet, and the search goes on from there.
Visited qubits are never entered again, so the list of free qubits shrinks with every move. -/

namespace CnotRouting

/-- Whether the search goes on from a position at which the CNOT can be applied. -/
inductive SearchMode where
  | stopAtEdge
  | goOn
  deriving DecidableEq

namespace CouplingGraph

variable (g : CouplingGraph)

def terminalSteps (v w : Nat) : List Step :=
  (if g.hasEdge v w then [⟨.native, v, w, none⟩] else []) ++
    (if g.hasEdge w v then [⟨.flip, v, w, none⟩] else [])

/-- The moves of the control `v` or the target `w` to qubit `i`, each with the position after it. -/
def movesTo (v w i : Nat) : List (Step × Nat × Nat) :=
  (if g.hasEdge v i then [(⟨.move .control .along, v, i, none⟩, i, w)] else []) ++
    (if g.hasEdge i v then [(⟨.move .control .against, v, i, none⟩, i, w)] else []) ++
    (if g.hasEdge w i then [(⟨.move .target .along, w, i, none⟩, v, i)] else []) ++
    (if g.hasEdge i w then [(⟨.move .target .against, w, i, none⟩, v, i)] else [])

/-- The forward parts that start at `(v, w)` and move to qubits of `free` only, in the order of the
search: the CNOT at once, then every first move by the qubit it enters. -/
def forwardPartsFrom (mode : SearchMode) (free : List Nat) (v w : Nat) : List Route :=
  let atOnce : List Route := (g.terminalSteps v w).map fun s => [s]
  if mode = .stopAtEdge ∧ atOnce ≠ [] then atOnce
  else atOnce ++ free.attach.flatMap fun i =>
    (g.movesTo v w i.val).flatMap fun (s, v', w') =>
      (forwardPartsFrom mode (free.erase i.val) v' w').map (s :: ·)
termination_by free.length
decreasing_by
  have := List.length_erase_of_mem i.property
  have := List.length_pos_of_mem i.property
  omega

/-- The search at one position, with the free qubits taken plainly from their list. -/
theorem forwardPartsFrom_eq (mode : SearchMode) (free : List Nat) (v w : Nat) :
    g.forwardPartsFrom mode free v w =
      if mode = .stopAtEdge ∧ g.terminalSteps v w ≠ [] then (g.terminalSteps v w).map ([·])
      else (g.terminalSteps v w).map ([·]) ++ free.flatMap fun i =>
        (g.movesTo v w i).flatMap fun m =>
          (g.forwardPartsFrom mode (free.erase i) m.2.1 m.2.2).map (m.1 :: ·) := by
  have plain : ∀ f : Nat → List Route, free.attach.flatMap (fun i => f i.val) = free.flatMap f :=
    fun f => by simp
  rw [forwardPartsFrom]
  simp only [plain fun i => (g.movesTo v w i).flatMap fun m =>
    (g.forwardPartsFrom mode (free.erase i) m.2.1 m.2.2).map (m.1 :: ·), ne_eq, List.map_eq_nil_iff]

/-- Visits the forward parts that go on from the given moves, the last of which comes first, in the
order of the search and without listing them. -/
def visitForwardParts {β : Type} (visit : β → Route → β) (mode : SearchMode) (free : List Nat)
    (v w : Nat) (moves : Route) (acc : β) : β :=
  let atOnce := g.terminalSteps v w
  let acc := atOnce.foldl (fun acc s => visit acc (s :: moves).reverse) acc
  if mode = .stopAtEdge ∧ atOnce ≠ [] then acc
  else free.attach.foldl (fun acc i =>
    (g.movesTo v w i.val).foldl (fun acc m =>
      visitForwardParts visit mode (free.erase i.val) m.2.1 m.2.2 (m.1 :: moves) acc) acc) acc
termination_by free.length
decreasing_by
  have := List.length_erase_of_mem i.property
  have := List.length_pos_of_mem i.property
  omega

/-- The visit folds over the list of the forward parts. -/
theorem visitForwardParts_eq {β : Type} (visit : β → Route → β) (mode : SearchMode)
    (free : List Nat) (v w : Nat) (moves : Route) (acc : β) :
    g.visitForwardParts visit mode free v w moves acc =
      (g.forwardPartsFrom mode free v w).foldl (fun acc r => visit acc (moves.reverse ++ r)) acc := by
  induction h : free.length using Nat.strongRecOn generalizing free v w moves acc with
  | _ n ih =>
    have step : ∀ i : { i // i ∈ free }, ∀ m : Step × Nat × Nat, ∀ acc : β,
        g.visitForwardParts visit mode (free.erase i.val) m.2.1 m.2.2 (m.1 :: moves) acc =
          ((g.forwardPartsFrom mode (free.erase i.val) m.2.1 m.2.2).map (m.1 :: ·)).foldl
            (fun acc r => visit acc (moves.reverse ++ r)) acc := by
      intro i m acc
      have erased := List.length_erase_of_mem i.property
      have positive := List.length_pos_of_mem i.property
      rw [ih _ (by omega) _ _ _ _ _ rfl, List.foldl_map]
      simp
    rw [visitForwardParts, forwardPartsFrom_eq]
    simp only [step]
    rw [List.foldl_attach (f := fun acc i => (g.movesTo v w i).foldl (fun acc m =>
      ((g.forwardPartsFrom mode (free.erase i) m.2.1 m.2.2).map (m.1 :: ·)).foldl
        (fun acc r => visit acc (moves.reverse ++ r)) acc) acc)]
    split <;> simp [List.foldl_append, List.foldl_flatMap, List.foldl_map]

def othersThan (v w : Nat) : List Nat := (List.range g.size).filter fun i => i != v && i != w

def forwardParts (mode : SearchMode) (v w : Nat) : List Route :=
  g.forwardPartsFrom mode (g.othersThan v w) v w

def forwardPartsOfPair (mode : SearchMode) (v w : Nat) : Except RoutingError (List Route) :=
  if v < g.size ∧ w < g.size then .ok (g.forwardParts mode v w) else .error .outOfBounds

/-- The forward part that is cheapest once its moves are taken back, with two-step chains joined to
cascades. The first of several is taken. -/
def cheapestForwardPart? (mode : SearchMode) (v w : Nat) : Option Route :=
  g.visitForwardParts (fun best r => keepLeast Route.completedCost best r.joined) mode
    (g.othersThan v w) v w [] none

theorem cheapestForwardPart?_eq (mode : SearchMode) (v w : Nat) :
    g.cheapestForwardPart? mode v w =
      firstLeast? Route.completedCost ((g.forwardParts mode v w).map Route.joined) := by
  simp [cheapestForwardPart?, visitForwardParts_eq, firstLeast?, List.foldl_map, forwardParts]

end CouplingGraph

end CnotRouting
