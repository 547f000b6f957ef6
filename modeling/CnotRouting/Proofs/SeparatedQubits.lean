import CnotRouting.GraphBuilders
import CnotRouting.Proofs.WrappedTables
import Mathlib.Order.Bounds.Basic

/-!
# Separated qubits

A forward part follows a path that joins its ends, so the search finds a route exactly for the pairs
that are joined. A graph whose number of pairs is in range has a device exactly if all its pairs are,
whatever disjoint-set structure keeps the components, as long as it is faithful.
-/

namespace CnotRouting

variable {g : CouplingGraph} {sets : DisjointSets}

namespace CouplingGraph

/-! ### Components -/

theorem isConnected_iff_zero : g.IsConnected ↔ ∀ q < g.size, g.undirected.Reachable 0 q := by
  constructor
  · intro connected q hq
    exact connected 0 (by omega) q hq
  · intro from_zero v hv w hw
    exact (from_zero v hv).symm.trans (from_zero w hw)

theorem isWeaklyConnected_iff (faithful : sets.IsFaithful) (valid : g.IsValid) :
    g.isWeaklyConnected sets = true ↔ g.IsConnected := by
  rw [isWeaklyConnected, List.all_eq_true, isConnected_iff_zero]
  constructor
  · intro all q hq
    rcases Nat.eq_zero_or_pos q with rfl | positive
    · exact .refl 0
    · have joined := all q (List.mem_range'_1.2 (by omega))
      exact (equiv_components_iff faithful valid (by omega) hq).1 joined
  · intro from_zero q hq
    have bounds := List.mem_range'_1.1 hq
    have inside : q < g.size := by omega
    exact (equiv_components_iff faithful valid (by omega) inside).2 (from_zero q inside)

/-- The first separated pair is qubit 0 with the smallest qubit that no path joins to it. -/
theorem firstSeparated?_eq_some (faithful : sets.IsFaithful) (valid : g.IsValid)
    (separated : ¬ g.IsConnected) :
    ∃ w, IsLeast {q | q < g.size ∧ ¬ g.undirected.Reachable 0 q} w ∧
      g.firstSeparated? sets = some (0, w) := by
  obtain ⟨q, hq, apart⟩ : ∃ q < g.size, ¬ g.undirected.Reachable 0 q := by
    simpa [isConnected_iff_zero] using separated
  have test : ∀ w < g.size, (!sets.equiv (g.components sets) 0 w) = true ↔
      ¬ g.undirected.Reachable 0 w := by
    intro w hw
    rw [← equiv_components_iff faithful valid (by omega) hw]
    simp
  obtain ⟨w, hw⟩ : ∃ w, (List.range g.size).find?
      (fun w => !sets.equiv (g.components sets) 0 w) = some w := by
    rw [← Option.isSome_iff_exists, List.find?_isSome]
    exact ⟨q, List.mem_range.2 hq, (test q hq).2 apart⟩
  obtain ⟨here, bound, before⟩ := List.find?_range_eq_some.1 hw
  have bound : w < g.size := List.mem_range.1 bound
  refine ⟨w, ⟨⟨bound, (test w bound).1 here⟩, ?_⟩, ?_⟩
  · rintro q ⟨hq, apart⟩
    by_contra less
    have joined := before q (by omega)
    rw [(test q hq).2 apart] at joined
    cases joined
  · obtain ⟨n, hn⟩ : ∃ n, g.size = n + 1 := ⟨g.size - 1, by omega⟩
    rw [hn] at hw
    rw [firstSeparated?]
    simp only [hn, List.range_succ_eq_map, List.findSome?_cons]
    rw [← List.range_succ_eq_map, hw]
    rfl

end CouplingGraph

/-! ### Routes -/

/-- A forward part follows a path that joins the ends. -/
theorem IsForwardPart.reachable {free : List Nat} {v w : Nat} {r : Route}
    (h : IsForwardPart g free v w r) : g.undirected.Reachable v w := by
  induction h with
  | stop hs =>
    rcases CouplingGraph.mem_terminalSteps.1 hs with ⟨edge, -⟩ | ⟨edge, -⟩
    · exact CouplingGraph.reachable_of_hasEdge edge
    · exact (CouplingGraph.reachable_of_hasEdge edge).symm
  | move _ hm _ ih =>
    rcases CouplingGraph.mem_movesTo.1 hm with ⟨edge, -, rfl, rfl⟩ | ⟨edge, -, rfl, rfl⟩ |
      ⟨edge, -, rfl, rfl⟩ | ⟨edge, -, rfl, rfl⟩
    · exact (CouplingGraph.reachable_of_hasEdge edge).trans ih
    · exact (CouplingGraph.reachable_of_hasEdge edge).symm.trans ih
    · exact ih.trans (CouplingGraph.reachable_of_hasEdge edge).symm
    · exact ih.trans (CouplingGraph.reachable_of_hasEdge edge)

theorem CouplingGraph.cheapestRoute_eq_disconnected {v w : Nat} (hv : v < g.size)
    (hw : w < g.size) (apart : ¬ g.undirected.Reachable v w) :
    g.cheapestRoute v w = .error (.disconnected v w) := by
  have hvw : v ≠ w := by
    rintro rfl
    exact apart (.refl v)
  have none : g.forwardParts .stopAtEdge v w = [] := by
    rw [List.eq_nil_iff_forall_not_mem]
    intro r hr
    exact apart (isForwardPart_of_mem hr).reachable
  rw [cheapestRoute, if_neg (by omega), if_neg hvw, cheapestForwardPart?_eq, none]
  rfl

/-! ### Devices -/

/-- A connected graph whose number of pairs is in range has one table, however that number is
computed. It keeps the cheapest route of every pair and its cost. -/
theorem Device.exists_complete (faithful : sets.IsFaithful) (valid : g.IsValid)
    (connected : g.IsConnected) (range : g.size * g.size < wordBound) :
    ∃ t, (∀ product ∈ [checkedProduct, wrappedProduct],
        RouteTable.ofGraphBy sets product g = .ok t ∧ Device.ofGraphBy sets product g = .ok ⟨g, t⟩) ∧
      ∀ v < g.size, ∀ w < g.size, ∃ r, g.cheapestRoute v w = .ok r ∧ t.route v w = .ok r ∧
        t.cost v w = .ok r.cost := by
  obtain ⟨rs, -, checked⟩ := exists_ofGraphBy faithful valid connected
    (checkedProduct_eq_ok_iff.2 ⟨range, rfl⟩) (Nat.le_refl _)
  have wrapped : ofGraphBy sets wrappedProduct g = .ok ⟨g, .ofRoutes g.size rs⟩ := by
    rw [ofGraphBy_congr (wrappedProduct_of_lt range)]
    exact checked
  have table {product} (h : ofGraphBy sets product g = .ok ⟨g, .ofRoutes g.size rs⟩) :
      RouteTable.ofGraphBy sets product g = .ok (.ofRoutes g.size rs) := by
    obtain ⟨t, ht, built⟩ := bind_eq_ok_iff.1 h
    cases built
    exact ht
  refine ⟨_, by simpa using ⟨⟨table checked, checked⟩, table wrapped, wrapped⟩, ?_⟩
  intro v hv w hw
  obtain ⟨r, hr, hcost, hcheapest⟩ := exists_stored valid checked hv hw
  exact ⟨r, hcheapest, hr, hcost⟩

/-- A graph that is not connected has no device. -/
theorem Device.ofGraphBy_of_separated (faithful : sets.IsFaithful) (valid : g.IsValid)
    (separated : ¬ g.IsConnected) (product : Nat → Nat → Except RoutingError Nat) :
    ∃ w, IsLeast {q | q < g.size ∧ ¬ g.undirected.Reachable 0 q} w ∧
      RouteTable.ofGraphBy sets product g = .error (.disconnected 0 w) ∧
      Device.ofGraphBy sets product g = .error (.disconnected 0 w) := by
  obtain ⟨w, least, hw⟩ := CouplingGraph.firstSeparated?_eq_some faithful valid separated
  have table : RouteTable.ofGraphBy sets product g = .error (.disconnected 0 w) := by
    rw [RouteTable.ofGraphBy, hw]
  exact ⟨w, least, table, bind_of_error table _⟩

/-- A pair of qubits has a route exactly if a path joins them, and a graph whose number of pairs is
in range has a table, and so a device, exactly if it is weakly connected. The table then keeps the
route of every pair. Otherwise qubit 0 and the smallest qubit that no path joins to it are reported.
The components may be kept by any faithful disjoint-set structure. -/
theorem route_exists_iff_reachable (faithful : sets.IsFaithful) (valid : g.IsValid) :
    (∀ v < g.size, ∀ w < g.size, v ≠ w →
      (g.undirected.Reachable v w → ∃ r, g.cheapestRoute v w = .ok r) ∧
      (¬ g.undirected.Reachable v w → g.cheapestRoute v w = .error (.disconnected v w))) ∧
    (g.isWeaklyConnected sets = true ↔ g.IsConnected) ∧
    (g.isWeaklyConnected sets = true → g.size * g.size < wordBound →
      ∃ t, (∀ product ∈ [checkedProduct, wrappedProduct],
          RouteTable.ofGraphBy sets product g = .ok t ∧
          Device.ofGraphBy sets product g = .ok ⟨g, t⟩) ∧
        ∀ v < g.size, ∀ w < g.size, ∃ r, g.cheapestRoute v w = .ok r ∧ t.route v w = .ok r ∧
          t.cost v w = .ok r.cost) ∧
    (g.isWeaklyConnected sets = false → ∀ product,
      ∃ w, IsLeast {q | q < g.size ∧ ¬ g.undirected.Reachable 0 q} w ∧
        RouteTable.ofGraphBy sets product g = .error (.disconnected 0 w) ∧
        Device.ofGraphBy sets product g = .error (.disconnected 0 w)) := by
  have connected_iff := CouplingGraph.isWeaklyConnected_iff faithful valid
  refine ⟨?_, connected_iff, ?_, ?_⟩
  · intro v hv w hw _
    exact ⟨fun joined => CouplingGraph.exists_cheapestRoute joined hv hw,
      CouplingGraph.cheapestRoute_eq_disconnected hv hw⟩
  · intro connected range
    exact Device.exists_complete faithful valid (connected_iff.1 connected) range
  · intro separated product
    have apart : ¬ g.IsConnected := by
      rw [← connected_iff, separated]
      exact Bool.false_ne_true
    exact Device.ofGraphBy_of_separated faithful valid apart product

theorem route_exists_iff_reachable_twoPairs :
    let g := CouplingGraph.ofPairs 4 [(0, 1), (3, 2)]
    (∃ r, g.cheapestRoute 0 1 = .ok r) ∧
      (∃ w, IsLeast {q | q < 4 ∧ ¬ g.undirected.Reachable 0 q} w ∧
        RouteTable.ofGraph g = .error (.disconnected 0 w) ∧
        Device.ofGraph g = .error (.disconnected 0 w)) ∧
      ∃ t r, RouteTable.ofGraph (.chain 3) = .ok t ∧ Device.ofGraph (.chain 3) = .ok ⟨.chain 3, t⟩ ∧
        (CouplingGraph.chain 3).cheapestRoute 2 0 = .ok r ∧ t.route 2 0 = .ok r := by
  intro g
  have valid : g.IsValid := CouplingGraph.isValid_ofPairs (by decide)
  have edge : g.hasEdge 0 1 = true := by decide
  have faithful := DisjointSets.labels_isFaithful
  obtain ⟨routes, -, -, separated⟩ := route_exists_iff_reachable faithful valid
  obtain ⟨-, -, connected, -⟩ :=
    route_exists_iff_reachable faithful (CouplingGraph.isValid_chain 3)
  obtain ⟨t, built, stored⟩ := connected (by decide +kernel) (by decide)
  obtain ⟨table, device⟩ := built checkedProduct (by simp)
  obtain ⟨r, cheapest, route, -⟩ := stored 2 (by decide) 0 (by decide)
  refine ⟨?_, separated (by decide +kernel) checkedProduct, t, r, table, device, cheapest, route⟩
  exact (routes 0 (by decide) 1 (by decide) (by decide)).1 (CouplingGraph.reachable_of_hasEdge edge)

/-- A chain of 65536 qubits can be kept and is weakly connected, but the number of its pairs is out
of range. No device is built of it, or one without routes, although its pairs have routes. -/
theorem connected_graph_without_device :
    let g := CouplingGraph.chain 65536
    CouplingGraph.buildChain 65536 = .ok g ∧ g.IsValid ∧ g.isWeaklyConnected .labels = true ∧
      (∃ r, g.cheapestRoute 0 1 = .ok r) ∧ Device.ofGraph g = .error .outOfBounds ∧
      ∃ d, Device.ofGraphWrapped g = .ok d ∧ d.table.route 0 1 = .error .outOfBounds := by
  intro g
  have valid : g.IsValid := CouplingGraph.isValid_chain 65536
  have connected : g.IsConnected := CouplingGraph.isConnected_chain 65536
  have size : g.size = 65536 := rfl
  obtain ⟨checked, wrapped⟩ := Device.ofGraph_longChain
  refine ⟨CouplingGraph.buildChain_eq_ok (by decide), valid,
    (CouplingGraph.isWeaklyConnected_iff DisjointSets.labels_isFaithful valid).2 connected, ?_,
    checked, _, wrapped, (Device.lookups_longChain (by decide) (by decide)).2⟩
  have first : 0 < g.size := by omega
  have second : 1 < g.size := by omega
  exact CouplingGraph.exists_cheapestRoute (connected 0 first 1 second) first second

end CnotRouting
