import CnotRouting.CouplingGraphs
import Mathlib.Tactic.Tauto

/-!
# Valid coupling graphs

A coupling graph is valid if its matrix is complete and its diagonal empty. The graph of a list of
edges has exactly these edges, so it is valid if they join distinct qubits of the graph.
-/

namespace CnotRouting

namespace CouplingGraph

/-- A complete matrix with an empty diagonal. -/
structure IsValid (g : CouplingGraph) : Prop where
  complete : g.adjacency.size = g.size * g.size
  loopless : ∀ v, g.hasEdge v v = false

theorem IsValid.ne {g : CouplingGraph} (h : g.IsValid) {v w : Nat}
    (hvw : g.hasEdge v w = true) : v ≠ w := by
  rintro rfl
  simp [h.loopless v] at hvw

/-- Two places of a row by row matrix are the same only if row and column are. -/
theorem place_inj {n v w x y : Nat} (hw : w < n) (hy : y < n) (h : v * n + w = x * n + y) :
    v = x ∧ w = y := by
  have hn : 0 < n := by omega
  have rows : (v * n + w) / n = (x * n + y) / n := by rw [h]
  have columns : (v * n + w) % n = (x * n + y) % n := by rw [h]
  rw [Nat.mul_comm v, Nat.mul_comm x, Nat.mul_add_div hn, Nat.mul_add_div hn, Nat.div_eq_of_lt hw,
    Nat.div_eq_of_lt hy] at rows
  rw [Nat.mul_comm v, Nat.mul_comm x, Nat.mul_add_mod, Nat.mul_add_mod, Nat.mod_eq_of_lt hw,
    Nat.mod_eq_of_lt hy] at columns
  exact ⟨rows, columns⟩

theorem place_lt {n v w : Nat} (hv : v < n) (hw : w < n) : v * n + w < n * n := by
  have := Nat.mul_le_mul_right n (Nat.succ_le_of_lt hv)
  rw [Nat.succ_mul] at this
  omega

/-- Marking edges in a matrix leaves exactly these and the earlier marks. -/
theorem getD_markEdges {n : Nat} {edges : List (Nat × Nat)} {matrix : Array Bool}
    (h : ∀ e ∈ edges, e.1 < n ∧ e.2 < n) (full : matrix.size = n * n) {v w : Nat} (hv : v < n)
    (hw : w < n) :
    (edges.foldl (fun matrix e => matrix.setIfInBounds (e.1 * n + e.2) true) matrix).getD
        (v * n + w) false = true ↔ (v, w) ∈ edges ∨ matrix.getD (v * n + w) false = true := by
  induction edges generalizing matrix with
  | nil => simp
  | cons e edges ih =>
    obtain ⟨he, htail⟩ := List.forall_mem_cons.1 h
    have here : (matrix.setIfInBounds (e.1 * n + e.2) true).getD (v * n + w) false = true ↔
        (v, w) = e ∨ matrix.getD (v * n + w) false = true := by
      have bound : v * n + w < matrix.size := full ▸ place_lt hv hw
      by_cases heq : e.1 * n + e.2 = v * n + w
      · obtain ⟨hev, hew⟩ := place_inj he.2 hw heq
        have same : (v, w) = e := Prod.ext hev.symm hew.symm
        simp [Array.getD, heq, bound, same]
      · have other : (v, w) ≠ e := by
          rintro rfl
          exact heq rfl
        simp [Array.getD, bound, heq, other]
    rw [List.foldl_cons, ih htail (by simpa using full), here, List.mem_cons]
    tauto

/-- The graph of a list of edges has exactly these edges. -/
theorem hasEdge_ofPairs {n : Nat} {edges : List (Nat × Nat)} (h : ∀ e ∈ edges, e.1 < n ∧ e.2 < n)
    {v w : Nat} : (ofPairs n edges).hasEdge v w = true ↔ (v, w) ∈ edges := by
  have size : (ofPairs n edges).size = n := rfl
  simp only [hasEdge, size, Bool.and_eq_true, decide_eq_true_eq]
  constructor
  · rintro ⟨⟨hv, hw⟩, marked⟩
    rcases (getD_markEdges h (by simp) hv hw).1 marked with hmem | hmem
    · exact hmem
    · simp [Array.getD] at hmem
  · intro hmem
    obtain ⟨hv, hw⟩ := h _ hmem
    exact ⟨⟨hv, hw⟩, (getD_markEdges h (by simp) hv hw).2 (.inl hmem)⟩

theorem size_markEdges {n : Nat} {edges : List (Nat × Nat)} {matrix : Array Bool} :
    (edges.foldl (fun matrix e => matrix.setIfInBounds (e.1 * n + e.2) true) matrix).size =
      matrix.size := by
  induction edges generalizing matrix with
  | nil => rfl
  | cons e edges ih => rw [List.foldl_cons, ih, Array.size_setIfInBounds]

/-- Whether an edge joins two distinct qubits below `n`. -/
def JoinsBelow (n : Nat) (e : Nat × Nat) : Prop := e.1 < n ∧ e.2 < n ∧ e.1 ≠ e.2

/-- Edges between distinct qubits make a valid graph. -/
theorem isValid_ofPairs {n : Nat} {edges : List (Nat × Nat)}
    (h : ∀ e ∈ edges, e.1 < n ∧ e.2 < n ∧ e.1 ≠ e.2) : (ofPairs n edges).IsValid := by
  constructor
  · rw [ofPairs, size_markEdges, Array.size_replicate]
  · intro v
    have inside : ∀ e ∈ edges, e.1 < n ∧ e.2 < n := fun e he => ⟨(h e he).1, (h e he).2.1⟩
    rw [Bool.eq_false_iff]
    intro loop
    exact (h _ ((hasEdge_ofPairs inside).1 loop)).2.2 rfl

/-- A valid graph is known by its size and its edges. -/
theorem IsValid.ext {g h : CouplingGraph} (hg : g.IsValid) (hh : h.IsValid) (size : g.size = h.size)
    (edges : ∀ v w, g.hasEdge v w = true ↔ h.hasEdge v w = true) : g = h := by
  obtain ⟨n, marks⟩ := g
  obtain ⟨_, marks'⟩ := h
  obtain rfl : n = _ := size
  have full : marks.size = n * n := hg.complete
  have full' : marks'.size = n * n := hh.complete
  congr
  apply Array.ext (full.trans full'.symm)
  intro i hi hi'
  have positive : 0 < n := Nat.pos_of_ne_zero (by rintro rfl; simp [full] at hi)
  have row : i / n < n := Nat.div_lt_of_lt_mul (full ▸ hi)
  have column : i % n < n := Nat.mod_lt i positive
  have place : i / n * n + i % n = i := Nat.div_add_mod' i n
  have same := edges (i / n) (i % n)
  simpa [hasEdge, row, column, place, Array.getD, hi, hi', ← Bool.eq_iff_iff] using same

theorem joins_chain {n : Nat} : ∀ e ∈ (List.range (n - 1)).map fun i => (i, i + 1), JoinsBelow n e := by
  intro e he
  obtain ⟨i, hi, rfl⟩ := List.mem_map.1 he
  have := List.mem_range.1 hi
  simp only [JoinsBelow]
  omega

theorem isValid_chain (n : Nat) : (chain n).IsValid := isValid_ofPairs joins_chain

/-- The edges of a chain lead from each qubit to the next. -/
theorem hasEdge_chain {n v w : Nat} : (chain n).hasEdge v w = true ↔ w = v + 1 ∧ w < n := by
  rw [chain, hasEdge_ofPairs fun e he => ⟨(joins_chain e he).1, (joins_chain e he).2.1⟩]
  simp only [List.mem_map, List.mem_range, Prod.mk.injEq]
  constructor
  · rintro ⟨i, hi, rfl, rfl⟩
    omega
  · rintro ⟨rfl, hw⟩
    exact ⟨v, by omega, rfl, rfl⟩

end CouplingGraph

end CnotRouting
