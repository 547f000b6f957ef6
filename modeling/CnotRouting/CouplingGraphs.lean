/-! # Coupling graphs

A coupling graph has an edge `v → w` where the hardware offers the CNOT with control `v` and target
`w`. It is kept as a flat adjacency matrix, row by row. Every constructor of this library leaves the
diagonal empty and fills the matrix completely; a graph taken over from a record may do neither. -/

namespace CnotRouting

/-- A directed graph on the qubits `0, …, size - 1`. -/
structure CouplingGraph where
  size : Nat
  adjacency : Array Bool
  deriving DecidableEq

inductive EdgeFault where
  | outOfRange (source target size : Nat)
  | selfLoop (qubit : Nat)
  deriving DecidableEq

/-- Cuts a list into rows of `width` entries, the last of which may be shorter. -/
def inRows {α : Type} (width : Nat) : List α → List (List α)
  | [] => []
  | a :: rest => (a :: rest.take (width - 1)) :: inRows width (rest.drop (width - 1))
termination_by entries => entries.length
decreasing_by simp only [List.length_drop, List.length_cons]; omega

/-- Every ordered pair of numbers below `n`, row by row. -/
def pairsBelow (n : Nat) : List (Nat × Nat) :=
  (List.range n).flatMap fun v => (List.range n).map fun w => (v, w)

@[simp] theorem mem_pairsBelow {n : Nat} {p : Nat × Nat} :
    p ∈ pairsBelow n ↔ p.1 < n ∧ p.2 < n := by
  obtain ⟨v, w⟩ := p
  simp [pairsBelow]

namespace CouplingGraph

/-- Whether the CNOT from `v` to `w` is native. -/
def hasEdge (g : CouplingGraph) (v w : Nat) : Bool :=
  v < g.size && w < g.size && g.adjacency.getD (v * g.size + w) false

/-- The graph with the listed edges, whatever they are. -/
def ofPairs (size : Nat) (edges : List (Nat × Nat)) : CouplingGraph :=
  ⟨size, edges.foldl (fun matrix e => matrix.setIfInBounds (e.1 * size + e.2) true)
    (Array.replicate (size * size) false)⟩

def edgeFault? (size : Nat) (e : Nat × Nat) : Option EdgeFault :=
  if size ≤ e.1 ∨ size ≤ e.2 then some (.outOfRange e.1 e.2 size)
  else if e.1 = e.2 then some (.selfLoop e.1)
  else none

/-- The graph with the listed edges; the first one out of range or on the diagonal is refused. -/
def ofEdges (size : Nat) (edges : List (Nat × Nat)) : Except EdgeFault CouplingGraph :=
  match edges.findSome? (edgeFault? size) with
  | some fault => .error fault
  | none => .ok (ofPairs size edges)

def chain (size : Nat) : CouplingGraph :=
  ofPairs size ((List.range (size - 1)).map fun i => (i, i + 1))

/-- The number of rows of the matrix, of which the last may be incomplete. -/
def rowCount (g : CouplingGraph) : Nat := (g.adjacency.size + g.size - 1) / g.size

def rowLength (g : CouplingGraph) (v : Nat) : Nat := min g.size (g.adjacency.size - v * g.size)

def edgesFrom (g : CouplingGraph) (v : Nat) : List (Nat × Nat) :=
  ((List.range (g.rowLength v)).filter fun w => g.adjacency.getD (v * g.size + w) false).map
    fun w => (v, w)

/-- Every edge, row by row. -/
def edges (g : CouplingGraph) : List (Nat × Nat) := (List.range g.rowCount).flatMap g.edgesFrom

def edgeCount (g : CouplingGraph) : Nat := g.adjacency.countP id

/-- The written form: a row of marks for each qubit, `X` for an edge and `-` for none. -/
def text (g : CouplingGraph) : String :=
  String.join <| (inRows g.size g.adjacency.toList).map fun row =>
    " ".intercalate (row.map fun edge => if edge then "X" else "-") ++ "\n"

theorem lt_size_of_hasEdge {g : CouplingGraph} {v w : Nat} (h : g.hasEdge v w = true) :
    v < g.size ∧ w < g.size := by
  simp only [hasEdge, Bool.and_eq_true, decide_eq_true_eq] at h
  exact h.1

/-- A complete matrix has a row for each qubit. -/
theorem rowCount_of_complete {g : CouplingGraph} (h : g.adjacency.size = g.size * g.size) :
    g.rowCount = g.size := by
  rcases Nat.eq_zero_or_pos g.size with zero | positive
  · simp [rowCount, zero]
  · rw [rowCount, h, Nat.add_sub_assoc positive, Nat.add_comm, Nat.add_mul_div_left _ _ positive,
      Nat.div_eq_of_lt (by omega), Nat.zero_add]

/-- The rows of a complete matrix are of one length. -/
theorem rowLength_of_complete {g : CouplingGraph} (h : g.adjacency.size = g.size * g.size) {v : Nat}
    (hv : v < g.size) : g.rowLength v = g.size := by
  have := Nat.mul_le_mul_right g.size (Nat.succ_le_of_lt hv)
  rw [Nat.succ_mul] at this
  rw [rowLength, h]
  omega

/-- The edges of a complete matrix are the pairs that `hasEdge` accepts. -/
theorem mem_edges {g : CouplingGraph} (h : g.adjacency.size = g.size * g.size) {v w : Nat} :
    (v, w) ∈ g.edges ↔ g.hasEdge v w = true := by
  simp only [edges, edgesFrom, rowCount_of_complete h, hasEdge, List.mem_flatMap, List.mem_range,
    List.mem_map, List.mem_filter, Prod.mk.injEq, Bool.and_eq_true, decide_eq_true_eq]
  constructor
  · rintro ⟨u, hu, x, ⟨hx, marked⟩, rfl, rfl⟩
    exact ⟨⟨hu, rowLength_of_complete h hu ▸ hx⟩, marked⟩
  · rintro ⟨⟨hv, hw⟩, marked⟩
    exact ⟨v, hv, w, ⟨(rowLength_of_complete h hv).symm ▸ hw, marked⟩, rfl, rfl⟩

end CouplingGraph

end CnotRouting
