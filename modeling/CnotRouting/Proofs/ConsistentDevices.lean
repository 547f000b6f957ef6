import CnotRouting.Devices
import CnotRouting.Proofs.CheckedLists
import CnotRouting.Proofs.ForwardParts

/-!
# Consistent devices

In a consistent device graph and table count the same qubits, the matrix is complete with an empty
diagonal, and the table has for every pair of distinct qubits a native route that realises its CNOT,
with the cost of that route. The device built from a graph is consistent.
-/

namespace CnotRouting

theorem getElem?_pairsBelow {n v w : Nat} (hv : v < n) (hw : w < n) :
    (pairsBelow n)[v * n + w]? = some (v, w) := by
  rw [pairsBelow, getElem?_flatMap_rows (by simp) hw]
  simp [hv, hw]

theorem getElem?_pairsBelow_eq {n i : Nat} (hi : i < n * n) :
    (pairsBelow n)[i]? = some (i / n, i % n) := by
  have positive : 0 < n := Nat.pos_of_mul_pos_left (Nat.zero_lt_of_lt hi)
  have place := getElem?_pairsBelow (Nat.div_lt_of_lt_mul hi) (Nat.mod_lt i positive)
  rwa [Nat.mul_comm, Nat.div_add_mod] at place

@[simp] theorem length_pairsBelow (n : Nat) : (pairsBelow n).length = n * n := by
  simp [pairsBelow]

/-- The pairs by their numbers. -/
theorem pairsBelow_eq_map (n : Nat) :
    pairsBelow n = (List.range (n * n)).map fun i => (i / n, i % n) := by
  apply List.ext_getElem?
  intro i
  by_cases hi : i < n * n
  · rw [getElem?_pairsBelow_eq hi]
    simp [hi]
  · rw [List.getElem?_eq_none (by simpa using hi), List.getElem?_eq_none (by simpa using hi)]

/-- What a table may keep for a pair of qubits: the empty route on the diagonal, and a route that
serves the pair off it. -/
def IsEntry (g : CouplingGraph) (pair : Nat × Nat) (r : Route) : Prop :=
  if pair.1 = pair.2 then r = [] else r.Serves g pair.1 pair.2

structure Device.IsConsistent (d : Device) : Prop where
  valid : d.graph.IsValid
  size_eq : d.table.size = d.graph.size
  routes_size : d.table.routes.size = d.size * d.size
  costs_eq : d.table.costs = d.table.routes.map Route.cost
  entry : ∀ v < d.size, ∀ w < d.size, ∃ r,
    d.table.routes[v * d.size + w]? = some r ∧ IsEntry d.graph (v, w) r

namespace RouteTable

variable {t : RouteTable} {v w : Nat}

theorem entry_eq_ok_iff {α : Type} {entries : Array α} {a : α} : t.entry entries v w = .ok a ↔
    v < t.size ∧ w < t.size ∧ entries[v * t.size + w]? = some a := by
  unfold entry contains position
  split
  · split <;> simp_all
  · simp_all

theorem route_eq_ok_iff {r : Route} : t.route v w = .ok r ↔
    v < t.size ∧ w < t.size ∧ t.routes[v * t.size + w]? = some r :=
  entry_eq_ok_iff

theorem cost_eq_ok_iff {c : Nat} : t.cost v w = .ok c ↔
    v < t.size ∧ w < t.size ∧ t.costs[v * t.size + w]? = some c :=
  entry_eq_ok_iff

/-- The routes of a table that was built from a list belong to the pairs row by row. -/
theorem route_ofRoutes {P : Nat × Nat → Route → Prop} {n : Nat} {rs : List Route}
    (h : List.Forall₂ P (pairsBelow n) rs) (hv : v < n) (hw : w < n) :
    ∃ r, (ofRoutes n rs).route v w = .ok r ∧ P (v, w) r := by
  obtain ⟨r, hr, hp⟩ := forall₂_getElem? h (getElem?_pairsBelow hv hw)
  exact ⟨r, route_eq_ok_iff.2 ⟨hv, hw, by simpa using hr⟩, hp⟩

end RouteTable

namespace Device

theorem isConsistent_ofRoutes {g : CouplingGraph} {rs : List Route} (valid : g.IsValid)
    (h : List.Forall₂ (IsEntry g) (pairsBelow g.size) rs) :
    IsConsistent ⟨g, .ofRoutes g.size rs⟩ where
  valid := valid
  size_eq := rfl
  routes_size := by simpa [size] using h.length_eq.symm
  costs_eq := by simp
  entry := by
    intro v hv w hw
    obtain ⟨r, hr, hentry⟩ := RouteTable.route_ofRoutes h hv hw
    exact ⟨r, (RouteTable.route_eq_ok_iff.1 hr).2.2, hentry⟩

namespace IsConsistent

variable {d : Device} {v w : Nat}

theorem route_eq_ok (h : d.IsConsistent) (hv : v < d.size) (hw : w < d.size) :
    ∃ r, d.table.route v w = .ok r ∧ IsEntry d.graph (v, w) r := by
  obtain ⟨r, hr, hentry⟩ := h.entry v hv w hw
  have size : d.table.size = d.size := h.size_eq
  exact ⟨r, RouteTable.route_eq_ok_iff.2 ⟨size ▸ hv, size ▸ hw, size.symm ▸ hr⟩, hentry⟩

/-- The routes of a consistent device are entries for the pairs, row by row. -/
theorem forall₂_isEntry (h : d.IsConsistent) :
    List.Forall₂ (IsEntry d.graph) (pairsBelow d.size) d.table.routes.toList := by
  refine List.forall₂_iff_get.2 ⟨by simp [h.routes_size], fun i hi hi' => ?_⟩
  have hi : i < d.size * d.size := by simpa using hi
  have positive : 0 < d.size := Nat.pos_of_mul_pos_left (Nat.zero_lt_of_lt hi)
  obtain ⟨r, hr, entry⟩ := h.entry (i / d.size) (Nat.div_lt_of_lt_mul hi) (i % d.size)
    (Nat.mod_lt i positive)
  rw [Nat.mul_comm, Nat.div_add_mod] at hr
  have pair := (List.getElem?_eq_some_iff.1 (getElem?_pairsBelow_eq hi)).2
  have route := (Array.getElem?_eq_some_iff.1 hr).2
  simpa [pair, route] using entry

/-- The table has exactly the pairs of qubits of the graph. -/
theorem of_route (h : d.IsConsistent) {r : Route} (hr : d.table.route v w = .ok r) :
    v < d.size ∧ w < d.size ∧ IsEntry d.graph (v, w) r := by
  have size : d.table.size = d.size := h.size_eq
  obtain ⟨hv, hw, -⟩ := RouteTable.route_eq_ok_iff.1 hr
  rw [size] at hv hw
  obtain ⟨r', hr', hentry⟩ := h.route_eq_ok hv hw
  obtain rfl : r' = r := by
    rw [hr] at hr'
    cases hr'
    rfl
  exact ⟨hv, hw, hentry⟩

theorem serves (h : d.IsConsistent) (hv : v < d.size) (hw : w < d.size) (hvw : v ≠ w) :
    ∃ r, d.table.route v w = .ok r ∧ r.Serves d.graph v w := by
  obtain ⟨r, hr, hentry⟩ := h.route_eq_ok hv hw
  exact ⟨r, hr, by simpa [IsEntry, hvw] using hentry⟩

/-- The cost of a pair is the cost of its route. -/
theorem cost_eq_ok (h : d.IsConsistent) {r : Route} (hr : d.table.route v w = .ok r) :
    d.table.cost v w = .ok r.cost := by
  obtain ⟨hv, hw, hr⟩ := RouteTable.route_eq_ok_iff.1 hr
  refine RouteTable.cost_eq_ok_iff.2 ⟨hv, hw, ?_⟩
  simp [h.costs_eq, hr]

end IsConsistent

/-! ### Devices of graphs -/

theorem checkedProduct_eq_ok_iff {a b c : Nat} :
    checkedProduct a b = .ok c ↔ a * b < wordBound ∧ c = a * b := by
  rw [checkedProduct]
  split <;> simp_all [eq_comm]

theorem wrappedProduct_of_lt {a b : Nat} (h : a * b < wordBound) :
    wrappedProduct a b = checkedProduct a b := by
  rw [wrappedProduct, checkedProduct, if_pos h, Nat.mod_eq_of_lt h]

section Built

variable {sets : DisjointSets} {product : Nat → Nat → Except RoutingError Nat} {g : CouplingGraph}
  {d : Device} {v w : Nat} {r : Route}

/-- A device that is built keeps the cheapest routes of the pairs with numbers below the product. -/
theorem ofGraphBy_eq_ok (h : ofGraphBy sets product g = .ok d) :
    ∃ count rs, product g.size g.size = .ok count ∧ d = ⟨g, .ofRoutes g.size rs⟩ ∧
      List.Forall₂ (fun i r => g.cheapestRoute (i / g.size) (i % g.size) = .ok r)
        (List.range count) rs := by
  obtain ⟨t, ht, h⟩ := bind_eq_ok_iff.1 h
  cases h
  rw [RouteTable.ofGraphBy] at ht
  split at ht
  · cases ht
  · obtain ⟨count, hcount, ht⟩ := bind_eq_ok_iff.1 ht
    obtain ⟨rs, hrs, ht⟩ := bind_eq_ok_iff.1 ht
    cases ht
    exact ⟨count, rs, hcount, rfl, mapM_eq_ok_iff.1 hrs⟩

theorem graph_of_ofGraphBy (h : ofGraphBy sets product g = .ok d) : d.graph = g := by
  obtain ⟨_, _, -, rfl, -⟩ := ofGraphBy_eq_ok h
  rfl

/-- Every route of a device that is built is the cheapest of its pair. -/
theorem cheapestRoute_of_ofGraphBy (h : ofGraphBy sets product g = .ok d)
    (hr : d.table.route v w = .ok r) : g.cheapestRoute v w = .ok r := by
  obtain ⟨count, rs, -, rfl, hrs⟩ := ofGraphBy_eq_ok h
  obtain ⟨-, inside, hr⟩ := RouteTable.route_eq_ok_iff.1 hr
  have hw : w < g.size := inside
  have positive : 0 < g.size := Nat.zero_lt_of_lt hw
  obtain ⟨i, hi, hcheapest⟩ := forall₂_getElem? hrs.flip (by simpa using hr)
  obtain ⟨_, rfl⟩ := List.getElem?_eq_some_iff.1 hi
  rwa [List.getElem_range, Nat.mul_comm, Nat.mul_add_div positive,
    Nat.div_eq_of_lt hw, Nat.mul_add_mod, Nat.mod_eq_of_lt hw] at hcheapest

/-- With equal products the same device is built. -/
theorem ofGraphBy_congr {other : Nat → Nat → Except RoutingError Nat}
    (h : product g.size g.size = other g.size g.size) :
    ofGraphBy sets product g = ofGraphBy sets other g := by
  rw [ofGraphBy, ofGraphBy, RouteTable.ofGraphBy, RouteTable.ofGraphBy, h]

/-- As long as the number of pairs is in range, it does not matter whether arithmetic is checked. -/
theorem ofGraphWrapped_eq_ofGraph (range : g.size * g.size < wordBound) :
    ofGraphWrapped g = ofGraph g :=
  ofGraphBy_congr (wrappedProduct_of_lt range)

/-- A device that is built with a checked product keeps the cheapest route of every pair. -/
theorem ofGraph_eq_ok (h : ofGraphBy sets checkedProduct g = .ok d) :
    ∃ rs, d = ⟨g, .ofRoutes g.size rs⟩ ∧
      List.Forall₂ (fun p r => g.cheapestRoute p.1 p.2 = .ok r) (pairsBelow g.size) rs := by
  obtain ⟨count, rs, hcount, rfl, hrs⟩ := ofGraphBy_eq_ok h
  obtain ⟨-, rfl⟩ := checkedProduct_eq_ok_iff.1 hcount
  refine ⟨rs, rfl, ?_⟩
  rw [pairsBelow_eq_map, List.forall₂_map_left_iff]
  exact hrs

theorem graph_of_ofGraph (h : ofGraph g = .ok d) : d.graph = g := graph_of_ofGraphBy h

theorem range_of_ofGraph (h : ofGraph g = .ok d) : g.size * g.size < wordBound := by
  obtain ⟨_, _, hcount, -, -⟩ := ofGraphBy_eq_ok h
  exact (checkedProduct_eq_ok_iff.1 hcount).1

theorem cheapestRoute_of_ofGraph (h : ofGraph g = .ok d) (hr : d.table.route v w = .ok r) :
    g.cheapestRoute v w = .ok r :=
  cheapestRoute_of_ofGraphBy h hr

end Built

theorem isEntry_of_cheapestRoute {g : CouplingGraph} {v w : Nat} {r : Route}
    (h : g.cheapestRoute v w = .ok r) : IsEntry g (v, w) r := by
  rw [IsEntry]
  split
  · rename_i hvw
    simp only at hvw
    rw [CouplingGraph.cheapestRoute] at h
    split at h
    · cases h
    · cases h
      rfl
  · rename_i hvw
    obtain ⟨moves, t, rfl, happ⟩ := CouplingGraph.cheapestRoute_approaches hvw h
    exact happ.serves

theorem isEntry_of_ofGraphBy {sets : DisjointSets}
    {product : Nat → Nat → Except RoutingError Nat} {g : CouplingGraph} {d : Device} {v w : Nat}
    {r : Route} (h : ofGraphBy sets product g = .ok d) (hr : d.table.route v w = .ok r) :
    IsEntry d.graph (v, w) r := by
  obtain rfl := graph_of_ofGraphBy h
  exact isEntry_of_cheapestRoute (cheapestRoute_of_ofGraphBy h hr)

/-- The device built from a valid graph is consistent. -/
theorem isConsistent_of_ofGraph {sets : DisjointSets} {g : CouplingGraph} {d : Device}
    (valid : g.IsValid) (h : ofGraphBy sets checkedProduct g = .ok d) : d.IsConsistent := by
  obtain ⟨rs, rfl, hrs⟩ := ofGraph_eq_ok h
  exact isConsistent_ofRoutes valid (hrs.imp fun _ _ hr => isEntry_of_cheapestRoute hr)

/-- The table of a valid graph keeps the cheapest route of every pair and its cost. -/
theorem exists_stored {sets : DisjointSets} {g : CouplingGraph} {d : Device} (valid : g.IsValid)
    (hd : ofGraphBy sets checkedProduct g = .ok d) {v w : Nat} (hv : v < g.size)
    (hw : w < g.size) :
    ∃ r, d.table.route v w = .ok r ∧ d.table.cost v w = .ok r.cost ∧
      g.cheapestRoute v w = .ok r := by
  obtain rfl := graph_of_ofGraphBy hd
  have consistent := isConsistent_of_ofGraph valid hd
  obtain ⟨r, hr, -⟩ := consistent.route_eq_ok hv hw
  exact ⟨r, hr, consistent.cost_eq_ok hr, cheapestRoute_of_ofGraphBy hd hr⟩

/-- The two qubits of a chain: one CNOT is native, the other is flipped. -/
def twoQubits : Device :=
  ⟨.chain 2, .ofRoutes 2 [[], [⟨.native, 0, 1, none⟩], [⟨.flip, 1, 0, none⟩], []]⟩

theorem ofGraph_chain_two : ofGraph (.chain 2) = .ok twoQubits := by
  apply ok_of_toOption
  decide +kernel

end Device

end CnotRouting
