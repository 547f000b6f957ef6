import CnotRouting.Proofs.ConnectedGraphs
import CnotRouting.Proofs.ExpansionCosts
import CnotRouting.Proofs.FoundPlacements

/-!
# Cheapest placements

With a full table the exhaustive search for a circuit is exact: it reports the least cost of a
placement and lists all placements of that cost.
-/

namespace CnotRouting

theorem not_isMetBefore_self (sites : List Nat) : ¬ IsMetBefore sites sites := by
  rintro (before | ⟨-, before⟩)
  · exact List.lt_irrefl _ before
  · exact List.lt_irrefl _ before

theorem Placement.Fits.cost_eq_ok_iff {p : Placement} {i : Interactions} {t : RouteTable}
    (h : p.Fits i.width t.size) (served : i.IsServedBy t) {x : Nat} :
    p.cost i t = .ok x ↔ i.placedCost t p.siteOf = x := by
  rw [served.cost_eq_ok h, Except.ok.injEq]

/-- A table that is read, or built for a number of pairs that is in range, is full. With a full
table, the exhaustive search reports the least cost of a placement of the circuit and lists exactly
the placements of that cost, each once, by their sets of sites and on one set lexicographically. -/
theorem searchAll_finds_cheapest (t : RouteTable) (c : Circuit) (valid : c.IsValid)
    (narrow : c.width ≤ t.size) :
    (∀ d : Device, d.IsObtained → d.table = t → t.costs.size = t.size * t.size) ∧
    (t.costs.size = t.size * t.size →
      ∃ r, (Interactions.ofCircuit c).searchAll t = .ok r ∧ r.strategy = .exhaustive ∧
        r.placements ≠ [] ∧ r.placements.Nodup ∧
        IsLeast {x | ∃ p : Placement, p.Fits c.width t.size ∧
          p.cost (.ofCircuit c) t = .ok x} r.cost ∧
        (∀ p, p ∈ r.placements ↔
          p.Fits c.width t.size ∧ p.cost (.ofCircuit c) t = .ok r.cost) ∧
        r.placements.Pairwise fun p q => IsMetBefore p.sites q.sites) := by
  constructor
  · rintro d hd rfl
    have consistent := hd.isConsistent
    rw [consistent.costs_eq, Array.size_map, consistent.routes_size, Device.size,
      consistent.size_eq]
  · intro full
    have served : (Interactions.ofCircuit c).IsServedBy t :=
      ⟨narrow, full, fun pair hpair => valid.pairs_lt hpair⟩
    obtain ⟨r, hr, strategy, ⟨⟨best, fits, cost⟩, least⟩, found, order⟩ := served.searchAll_least
    have listed : ∀ p, p ∈ r.placements ↔
        p.Fits c.width t.size ∧ p.cost (.ofCircuit c) t = .ok r.cost := by
      intro p
      rw [found p]
      exact and_congr_right fun hp => (hp.cost_eq_ok_iff served).symm
    have cheapest := (fits.cost_eq_ok_iff served).2 cost
    refine ⟨r, hr, strategy, ?_, ?_, ⟨⟨best, fits, cheapest⟩, ?_⟩, listed, order⟩
    · exact List.ne_nil_of_mem ((listed best).2 ⟨fits, cheapest⟩)
    · refine order.imp ?_
      rintro p q before rfl
      exact not_isMetBefore_self p.sites before
    · rintro x ⟨p, hp, hx⟩
      exact least ⟨p, hp, (hp.cost_eq_ok_iff served).1 hx⟩

theorem searchAll_finds_cheapest_chain_three :
    ∃ d r, Device.ofGraph (.chain 3) = .ok d ∧
      (Interactions.ofCircuit .twoGates).searchAll d.table = .ok r ∧ r.placements ≠ [] ∧
      ∀ p, p ∈ r.placements ↔
        p.Fits 2 d.table.size ∧ p.cost (.ofCircuit .twoGates) d.table = .ok r.cost := by
  have valid := CouplingGraph.isValid_chain 3
  obtain ⟨d, hd, -⟩ :=
    Device.exists_ofGraph valid (CouplingGraph.isConnected_chain 3) (by decide)
  have obtained := Device.isObtained_of_ofGraph valid hd
  have narrow : Circuit.twoGates.width ≤ d.table.size := by
    rw [obtained.isConsistent.size_eq, Device.graph_of_ofGraph hd]
    decide
  obtain ⟨full, finds⟩ :=
    searchAll_finds_cheapest d.table .twoGates Circuit.twoGates_isValid narrow
  obtain ⟨r, hr, -, nonempty, -, -, listed, -⟩ := finds (full d obtained rfl)
  exact ⟨d, r, hd, hr, nonempty, listed⟩

/-- With the table of the long chain, built where arithmetic is not checked, the search fails. -/
theorem searchAll_fails_longChain :
    ∃ d, Device.ofGraphWrapped (.chain 65536) = .ok d ∧ Circuit.oneCnot.IsValid ∧
      Circuit.oneCnot.width ≤ d.table.size ∧
      (Interactions.ofCircuit .oneCnot).searchAll d.table = .error .outOfBounds :=
  ⟨_, Device.ofGraph_longChain.2, Circuit.oneCnot_isValid, by decide,
    Interactions.searchAll_longChain⟩

end CnotRouting
