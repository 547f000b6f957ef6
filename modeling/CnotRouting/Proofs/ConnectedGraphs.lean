import CnotRouting.Proofs.ConsistentDevices
import CnotRouting.Proofs.DisjointClasses
import CnotRouting.Proofs.FirstLeast
import Mathlib.Combinatorics.SimpleGraph.Connectivity.Connected

/-!
# Connected coupling graphs

A path joins two qubits exactly if a disjoint-set structure that is told of the edges puts them in
one class, so in a connected graph no two qubits are separated. The control can walk along a path to
the target, over qubits that are still free, so the search finds a route for every pair, and the
graph has a device if the number of its pairs is in range.
-/

namespace CnotRouting

namespace CouplingGraph

/-- The graph of the pairs that an edge joins in one direction or the other. -/
def undirected (g : CouplingGraph) : SimpleGraph Nat :=
  .fromRel fun v w => g.hasEdge v w = true

/-- Whether a path joins every two qubits, over edges in either direction. -/
def IsConnected (g : CouplingGraph) : Prop :=
  ∀ v < g.size, ∀ w < g.size, g.undirected.Reachable v w

variable {g : CouplingGraph}

theorem hasEdge_of_adj {v w : Nat} (h : g.undirected.Adj v w) :
    g.hasEdge v w = true ∨ g.hasEdge w v = true :=
  ((SimpleGraph.fromRel_adj _ v w).1 h).2

theorem lt_size_of_adj {v w : Nat} (h : g.undirected.Adj v w) : v < g.size ∧ w < g.size := by
  rcases hasEdge_of_adj h with edge | edge
  · exact lt_size_of_hasEdge edge
  · exact (lt_size_of_hasEdge edge).symm

theorem lt_size_of_mem_support {v w x : Nat} (hw : w < g.size) {path : g.undirected.Walk v w}
    (hx : x ∈ path.support) : x < g.size := by
  induction path with
  | nil =>
    obtain rfl : x = _ := by simpa using hx
    exact hw
  | cons edge tail ih =>
    rcases List.mem_cons.1 hx with rfl | hx
    · exact (lt_size_of_adj edge).1
    · exact ih hw hx

theorem isConnected_chain (n : Nat) : (chain n).IsConnected := by
  have adjacent : ∀ v, v + 1 < n → (chain n).undirected.Adj v (v + 1) := by
    intro v hv
    have edge : (chain n).hasEdge v (v + 1) = true := hasEdge_chain.2 ⟨rfl, hv⟩
    exact (SimpleGraph.fromRel_adj _ _ _).2 ⟨by omega, .inl edge⟩
  have from_zero : ∀ v, v < n → (chain n).undirected.Reachable 0 v := by
    intro v hv
    induction v with
    | zero => exact .refl 0
    | succ v ih => exact (ih (by omega)).trans (adjacent v hv).reachable
  intro v hv w hw
  exact (from_zero v hv).symm.trans (from_zero w hw)

theorem reachable_of_hasEdge {v w : Nat} (h : g.hasEdge v w = true) :
    g.undirected.Reachable v w := by
  by_cases hvw : v = w
  · rw [hvw]
  · have adjacent : g.undirected.Adj v w := (SimpleGraph.fromRel_adj _ v w).2 ⟨hvw, .inl h⟩
    exact adjacent.reachable

/-! ### Components -/

/-- The equivalence closure of the edges relates the qubits that a path joins. -/
theorem eqvGen_edges_iff (complete : g.adjacency.size = g.size * g.size) {v w : Nat} :
    Relation.EqvGen (fun a b => (a, b) ∈ g.edges) v w ↔ g.undirected.Reachable v w := by
  constructor
  · intro joined
    induction joined with
    | rel a b hab => exact reachable_of_hasEdge ((mem_edges complete).1 hab)
    | refl a => exact .refl a
    | symm _ _ _ ih => exact ih.symm
    | trans _ _ _ _ _ first second => exact first.trans second
  · intro h
    rw [SimpleGraph.reachable_iff_reflTransGen] at h
    induction h with
    | refl => exact .refl _
    | tail _ step ih =>
      refine .trans _ _ _ ih ?_
      rcases hasEdge_of_adj step with edge | edge
      · exact .rel _ _ ((mem_edges complete).2 edge)
      · exact .symm _ _ (.rel _ _ ((mem_edges complete).2 edge))

variable {sets : DisjointSets}

/-- Two qubits are in one component exactly if a path joins them. -/
theorem equiv_components_iff (faithful : sets.IsFaithful) (valid : g.IsValid) {v w : Nat}
    (hv : v < g.size) (hw : w < g.size) :
    sets.equiv (g.components sets) v w = true ↔ g.undirected.Reachable v w := by
  have inside : ∀ e ∈ g.edges, e.1 < g.size ∧ e.2 < g.size := fun e he =>
    lt_size_of_hasEdge ((mem_edges valid.complete).1 he)
  rw [components, faithful g.size g.edges inside v hv w hw, eqvGen_edges_iff valid.complete]

/-- In a connected graph no two qubits are separated. -/
theorem firstSeparated?_eq_none (faithful : sets.IsFaithful) (valid : g.IsValid)
    (connected : g.IsConnected) : g.firstSeparated? sets = none := by
  rw [firstSeparated?, List.findSome?_eq_none_iff]
  intro v hv
  rw [Option.map_eq_none_iff, List.find?_eq_none]
  intro w hw
  have hv := List.mem_range.1 hv
  have hw := List.mem_range.1 hw
  simpa using (equiv_components_iff faithful valid hv hw).2 (connected v hv w hw)

/-! ### Routes -/

/-- If a path joins the ends over free qubits, the search finds a forward part. -/
theorem forwardPartsFrom_ne_nil {v w : Nat} {path : g.undirected.Walk v w} (simple : path.IsPath)
    (hvw : v ≠ w) {free : List Nat}
    (hfree : ∀ x ∈ path.support, x ≠ v → x ≠ w → x ∈ free) (mode : SearchMode) :
    g.forwardPartsFrom mode free v w ≠ [] := by
  induction path generalizing free with
  | nil => exact absurd rfl hvw
  | @cons v i w edge tail ih =>
    obtain ⟨simple_tail, fresh⟩ := (SimpleGraph.Walk.cons_isPath_iff edge tail).1 simple
    by_cases stops : g.terminalSteps v w = []
    · have hiw : i ≠ w := by
        rintro rfl
        rcases hasEdge_of_adj edge with h | h <;> simp [terminalSteps, h] at stops
      have hi : i ∈ free := by
        apply hfree i _ edge.ne.symm hiw
        simp
      have onward : g.forwardPartsFrom mode (free.erase i) i w ≠ [] := by
        apply ih simple_tail hiw
        intro x hx hxi hxw
        have hxv : x ≠ v := fun h => fresh (h ▸ hx)
        exact (List.mem_erase_of_ne hxi).2 (hfree x (by simp [hx]) hxv hxw)
      have move : ∃ s, (s, i, w) ∈ g.movesTo v w i := by
        rcases hasEdge_of_adj edge with h | h
        · exact ⟨_, mem_movesTo.2 (.inl ⟨h, rfl, rfl, rfl⟩)⟩
        · exact ⟨_, mem_movesTo.2 (.inr (.inl ⟨h, rfl, rfl, rfl⟩))⟩
      obtain ⟨s, hs⟩ := move
      obtain ⟨r, hr⟩ := List.exists_mem_of_ne_nil _ onward
      exact List.ne_nil_of_mem (cons_mem_forwardPartsFrom (fun _ => stops) hi hs hr)
    · obtain ⟨s, hs⟩ := List.exists_mem_of_ne_nil _ stops
      exact List.ne_nil_of_mem (singleton_mem_forwardPartsFrom hs)

/-- Between two qubits that a path joins, the search finds a forward part in either mode. -/
theorem exists_cheapestForwardPart {v w : Nat} (h : g.undirected.Reachable v w) (hw : w < g.size)
    (hvw : v ≠ w) (mode : SearchMode) : ∃ r, g.cheapestForwardPart? mode v w = some r := by
  obtain ⟨path, simple⟩ := h.exists_isPath
  have others : ∀ x ∈ path.support, x ≠ v → x ≠ w → x ∈ g.othersThan v w := by
    intro x hx hxv hxw
    exact mem_othersThan.2 ⟨lt_size_of_mem_support hw hx, hxv, hxw⟩
  have found := forwardPartsFrom_ne_nil simple hvw others mode
  apply Option.isSome_iff_exists.1
  rw [cheapestForwardPart?_eq]
  apply foldl_keepBest_isSome
  right
  simpa [forwardParts] using found

theorem exists_cheapestRoute {v w : Nat} (h : g.undirected.Reachable v w) (hv : v < g.size)
    (hw : w < g.size) : ∃ r, g.cheapestRoute v w = .ok r := by
  rw [cheapestRoute]
  rw [if_neg (by omega)]
  split
  · exact ⟨[], rfl⟩
  · rename_i hvw
    obtain ⟨r, hr⟩ := exists_cheapestForwardPart h hw hvw .stopAtEdge
    rw [hr]
    exact ⟨_, rfl⟩

end CouplingGraph

namespace Device

variable {g : CouplingGraph}

/-- The pairs of a connected graph all have routes, so as many are kept as the product says. -/
theorem exists_ofGraphBy {sets : DisjointSets} {product : Nat → Nat → Except RoutingError Nat}
    {count : Nat} (faithful : sets.IsFaithful) (valid : g.IsValid) (connected : g.IsConnected)
    (hcount : product g.size g.size = .ok count) (le : count ≤ g.size * g.size) :
    ∃ rs, rs.length = count ∧ ofGraphBy sets product g = .ok ⟨g, .ofRoutes g.size rs⟩ := by
  have each : ∀ i ∈ List.range count,
      ∃ r, g.cheapestRoute (i / g.size) (i % g.size) = .ok r := by
    intro i hi
    have hi : i < g.size * g.size := Nat.lt_of_lt_of_le (List.mem_range.1 hi) le
    have positive : 0 < g.size := Nat.pos_of_mul_pos_left (Nat.zero_lt_of_lt hi)
    have hv : i / g.size < g.size := Nat.div_lt_of_lt_mul hi
    have hw : i % g.size < g.size := Nat.mod_lt i positive
    exact CouplingGraph.exists_cheapestRoute (connected _ hv _ hw) hv hw
  obtain ⟨rs, hrs⟩ := exists_forall₂ each
  have table : RouteTable.ofGraphBy sets product g = .ok (.ofRoutes g.size rs) := by
    rw [RouteTable.ofGraphBy, CouplingGraph.firstSeparated?_eq_none faithful valid connected]
    refine bind_eq_ok_iff.2 ⟨count, hcount, ?_⟩
    exact bind_eq_ok_iff.2 ⟨rs, mapM_eq_ok_iff.2 hrs, rfl⟩
  exact ⟨rs, by simpa using hrs.length_eq.symm, bind_eq_ok_iff.2 ⟨_, table, rfl⟩⟩

/-- A connected graph has a device if the number of its pairs is in range, the same whether
arithmetic is checked or not. -/
theorem exists_ofGraph (valid : g.IsValid) (connected : g.IsConnected)
    (range : g.size * g.size < wordBound) :
    ∃ d, ofGraph g = .ok d ∧ ofGraphWrapped g = .ok d := by
  obtain ⟨rs, -, hd⟩ := exists_ofGraphBy DisjointSets.labels_isFaithful valid connected
    (checkedProduct_eq_ok_iff.2 ⟨range, rfl⟩) (Nat.le_refl _)
  exact ⟨_, hd, (ofGraphWrapped_eq_ofGraph range).trans hd⟩

end Device

end CnotRouting
