import CnotRouting.Proofs.BoundedCosts
import CnotRouting.Proofs.ComparedCosts
import CnotRouting.TokenReading

/-!
# Costliest routes

A path over all qubits of a graph is as long as a path can be. The CNOT is best applied on an edge
along the path, where it costs nothing, and if all edges run against the path they are the cheaper
ones to carry an end over. Both bounds are attained by the CNOTs between the ends of a chain.
-/

namespace CnotRouting

namespace CouplingGraph

variable {g : CouplingGraph} {v w m j : Nat} {p : Nat → Nat}

/-! ### The cost of a path by its edges -/

/-- One edge of a path applies the CNOT, and the others carry an end over and back. -/
theorem pathCost_eq_add_sum (hj : j < m) (p : Nat → Nat) :
    g.pathCost m p j = g.applyCost (p j) (p (j + 1)) +
      ∑ k ∈ (Finset.range m).erase j, 2 * g.carryCost (p k) (p (k + 1)) := by
  rw [pathCost, ← Finset.add_sum_erase _ _ (Finset.mem_range.2 hj), if_pos rfl]
  congr 1
  apply Finset.sum_congr rfl
  intro k hk
  rw [if_neg (Finset.ne_of_mem_erase hk)]

theorem card_other_edges (hj : j < m) : ((Finset.range m).erase j).card = m - 1 := by
  rw [Finset.card_erase_of_mem (Finset.mem_range.2 hj), Finset.card_range]

theorem pathCost_le (hj : j < m) (p : Nat → Nat) :
    g.pathCost m p j ≤ g.applyCost (p j) (p (j + 1)) + 12 * (m - 1) := by
  have each : ∀ k ∈ (Finset.range m).erase j, 2 * g.carryCost (p k) (p (k + 1)) ≤ 12 := fun k _ =>
    Nat.mul_le_mul_left 2 (g.carryCost_bounds (p k) (p (k + 1))).2
  have total := Finset.sum_le_card_nsmul _ _ 12 each
  rw [card_other_edges hj, smul_eq_mul] at total
  rw [pathCost_eq_add_sum hj]
  omega

theorem pathCost_of_carryCost (hj : j < m) {b : Nat}
    (h : ∀ k < m, g.carryCost (p k) (p (k + 1)) = b) :
    g.pathCost m p j = g.applyCost (p j) (p (j + 1)) + 2 * b * (m - 1) := by
  have each : ∀ k ∈ (Finset.range m).erase j, 2 * g.carryCost (p k) (p (k + 1)) = 2 * b := by
    intro k hk
    rw [h k (Finset.mem_range.1 (Finset.mem_of_mem_erase hk))]
  rw [pathCost_eq_add_sum hj, Finset.sum_eq_card_nsmul each, card_other_edges hj, smul_eq_mul,
    Nat.mul_comm (m - 1)]

namespace IsSimplePath

/-- A path that meets no qubit twice has fewer edges than there are qubits. -/
theorem length_lt_size (path : g.IsSimplePath v w m p) (positive : 0 < m) : m < g.size := by
  have inside : ∀ k ∈ Finset.range (m + 1), p k ∈ Finset.range g.size := by
    intro k hk
    rw [Finset.mem_range] at hk ⊢
    by_cases last : k = m
    · have edge := path.joined (m - 1) (by omega)
      rw [Nat.sub_add_cancel positive] at edge
      exact last ▸ (lt_size_of_adj edge).2
    · exact (lt_size_of_adj (path.joined k (by omega))).1
  have distinct : Set.InjOn p (Finset.range (m + 1)) := by
    intro k hk l hl heq
    simp only [Finset.coe_range, Set.mem_Iio] at hk hl
    exact path.simple k (by omega) l (by omega) heq
  have count := Finset.card_le_card_of_injOn p inside distinct
  simpa using count

/-- On every path there is an edge where the CNOT is cheap: one along the path, or any edge if all
of them run against it. -/
theorem exists_pathCost_le (path : g.IsSimplePath v w m p) (positive : 0 < m) :
    ∃ j < m, g.pathCost m p j ≤ max (12 * (m - 1)) (10 * (m - 1) + 4) := by
  by_cases along : ∃ j < m, g.hasEdge (p j) (p (j + 1)) = true
  · obtain ⟨j, hj, edge⟩ := along
    have cost := g.pathCost_le hj p
    rw [applyCost, if_pos edge] at cost
    exact ⟨j, hj, by omega⟩
  · have against : ∀ k < m, g.carryCost (p k) (p (k + 1)) = 5 := by
      intro k hk
      have back := (hasEdge_of_adj (path.joined k hk)).resolve_left fun edge => along ⟨k, hk, edge⟩
      rw [carryCost, if_pos back]
    have cost := pathCost_of_carryCost positive against
    have applied := g.applyCost_le (p 0) (p (0 + 1))
    exact ⟨0, positive, by omega⟩

end IsSimplePath

/-- The least cost of a pair is bounded by the number of qubits. -/
theorem IsOptimalCost.le {c : Nat} (hc : g.IsOptimalCost v w c) :
    c ≤ max (12 * (g.size - 2)) (10 * (g.size - 2) + 4) := by
  cases hc.source with
  | native forth => omega
  | flipped forth back => omega
  | chained forth back chain => omega
  | carried forth back unchained least =>
    obtain ⟨⟨m, p, j, path, hj, -⟩, below⟩ := least
    have positive : 0 < m := by omega
    obtain ⟨j', hj', le⟩ := path.exists_pathCost_le positive
    have short := path.length_lt_size positive
    have := below ⟨m, p, j', path, hj', rfl⟩
    omega

/-! ### Chains -/

variable {n : Nat}

/-- From the start of a chain there is one way only. -/
theorem IsSimplePath.eq_of_chain (path : (chain n).IsSimplePath 0 w m p) {k : Nat} (hk : k ≤ m) :
    p k = k := by
  induction k using Nat.strongRecOn with
  | _ k ih =>
    cases k with
    | zero => exact path.first
    | succ k =>
      have here := ih k (by omega) (by omega)
      rcases hasEdge_of_adj (path.joined k (by omega)) with edge | edge
      · have := hasEdge_chain.1 edge
        omega
      · have back := hasEdge_chain.1 edge
        -- one step back the path has been before
        have before := ih (k - 1) (by omega) (by omega)
        have := path.simple (k + 1) hk (k - 1) (by omega) (by omega)
        omega

theorem IsSimplePath.length_of_chain (path : (chain n).IsSimplePath 0 (n - 1) m p) : m = n - 1 :=
  (path.eq_of_chain le_rfl).symm.trans path.last

theorem eq_of_mem_pathCosts_along {x : Nat} (hx : x ∈ (chain n).pathCosts 0 (n - 1)) :
    x = 12 * (n - 2) := by
  obtain ⟨m, p, j, path, hj, rfl⟩ := hx
  have length := path.length_of_chain
  have along : ∀ k < m, (chain n).hasEdge (p k) (p (k + 1)) = true := by
    intro k hk
    rw [path.eq_of_chain hk.le, path.eq_of_chain hk, hasEdge_chain]
    omega
  have against : ∀ k < m, (chain n).hasEdge (p (k + 1)) (p k) = false := by
    intro k hk
    rw [path.eq_of_chain hk.le, path.eq_of_chain hk, Bool.eq_false_iff, ne_eq, hasEdge_chain]
    omega
  have carried : ∀ k < m, (chain n).carryCost (p k) (p (k + 1)) = 6 := by
    intro k hk
    simp [carryCost, against k hk]
  rw [pathCost_of_carryCost hj carried, applyCost, if_pos (along j hj)]
  omega

theorem eq_of_mem_pathCosts_against {x : Nat} (hx : x ∈ (chain n).pathCosts (n - 1) 0) :
    x = 10 * (n - 2) + 4 := by
  obtain ⟨m, p, j, path, hj, rfl⟩ := hx
  have length := path.backward.length_of_chain
  have place : ∀ k ≤ m, p k = m - k := by
    intro k hk
    have turned := path.backward.eq_of_chain (Nat.sub_le m k)
    rwa [Nat.sub_sub_self hk] at turned
  have along : ∀ k < m, (chain n).hasEdge (p k) (p (k + 1)) = false := by
    intro k hk
    rw [place k hk.le, place (k + 1) hk, Bool.eq_false_iff, ne_eq, hasEdge_chain]
    omega
  have against : ∀ k < m, (chain n).hasEdge (p (k + 1)) (p k) = true := by
    intro k hk
    rw [place k hk.le, place (k + 1) hk, hasEdge_chain]
    omega
  have carried : ∀ k < m, (chain n).carryCost (p k) (p (k + 1)) = 5 := by
    intro k hk
    simp [carryCost, against k hk]
  rw [pathCost_of_carryCost hj carried, applyCost, along j hj]
  simp
  omega

/-- From the start of a long chain to its end, the control is carried along all edges but one. -/
theorem IsOptimalCost.eq_of_chain_along {c : Nat} (hn : 4 ≤ n)
    (hc : (chain n).IsOptimalCost 0 (n - 1) c) : c = 12 * (n - 2) := by
  cases hc.source with
  | native forth =>
    have := hasEdge_chain.1 forth
    omega
  | flipped forth back =>
    have := hasEdge_chain.1 back
    omega
  | chained forth back chain =>
    obtain ⟨i, first, second⟩ := chain
    have := hasEdge_chain.1 first
    have := hasEdge_chain.1 second
    omega
  | carried forth back unchained least => exact eq_of_mem_pathCosts_along least.1

/-- From the end of a chain to its start, an end is carried against all edges but one, on which the
CNOT is flipped. -/
theorem IsOptimalCost.eq_of_chain_against {c : Nat} (hn : 2 ≤ n)
    (hc : (chain n).IsOptimalCost (n - 1) 0 c) : c = 10 * (n - 2) + 4 := by
  cases hc.source with
  | native forth =>
    have := hasEdge_chain.1 forth
    omega
  | flipped forth back =>
    have := hasEdge_chain.1 back
    omega
  | chained forth back chain =>
    obtain ⟨i, first, -⟩ := chain
    have := hasEdge_chain.1 first
    omega
  | carried forth back unchained least => exact eq_of_mem_pathCosts_against least.1

/-! ### Routes -/

/-- Whatever the search weighs for a pair is bounded by the number of qubits. -/
theorem completedCost_joined_le_of_mem {mode : SearchMode} (hv : v < g.size) (hw : w < g.size)
    (hvw : v ≠ w) {part : Route} (h : part ∈ g.forwardParts mode v w) :
    part.joined.completedCost ≤ 12 * (g.size - 2) + 4 := by
  have free := length_othersThan_add_two_le hv hw hvw
  have cost := (isForwardPart_of_mem h).completedCost_joined_le
  omega

/-- On a graph within the limit, what the search weighs can be computed in words. -/
theorem wordCompletedCost?_of_mem {mode : SearchMode} (hv : v < g.size) (hw : w < g.size)
    (hvw : v ≠ w) (size_le : g.size ≤ sizeLimit) {part : Route}
    (h : part ∈ g.forwardParts mode v w) :
    part.joined.wordCompletedCost? = some part.joined.completedCost := by
  have cost := completedCost_joined_le_of_mem hv hw hvw h
  have double := part.joined.two_mul_cost_le
  have limit : 12 * (sizeLimit - 2) + 4 + 6 < wordBound := by decide
  exact Route.wordCompletedCost?_eq (by omega)

theorem length_le_of_cheapestRoute (hv : v < g.size) (hw : w < g.size) (hvw : v ≠ w) {r : Route}
    (h : g.cheapestRoute v w = .ok r) : r.length ≤ 2 * (g.size - 2) + 1 := by
  obtain ⟨best, hbest, rfl⟩ := exists_of_cheapestRoute hvw h
  rw [cheapestForwardPart?_eq] at hbest
  obtain ⟨part, hpart, rfl⟩ := List.mem_map.1 (mem_of_firstBest?_eq_some hbest)
  have free := length_othersThan_add_two_le hv hw hvw
  have length := (isForwardPart_of_mem hpart).length_joined_le
  rw [Route.length_completed]
  omega

end CouplingGraph

/-- The costs between the ends of a chain. -/
theorem Device.chain_costs {n : Nat} {d : Device} (hn : 2 ≤ n) (h : ofGraph (.chain n) = .ok d) :
    (4 ≤ n → d.table.cost 0 (n - 1) = .ok (12 * (n - 2))) ∧
      d.table.cost (n - 1) 0 = .ok (10 * (n - 2) + 4) := by
  have valid := CouplingGraph.isValid_chain n
  have start : 0 < (CouplingGraph.chain n).size := Nat.lt_of_lt_of_le Nat.two_pos hn
  have last : n - 1 < (CouplingGraph.chain n).size := Nat.sub_lt start Nat.one_pos
  have distinct : 0 ≠ n - 1 := by omega
  obtain ⟨r, -, cost, hr⟩ := exists_stored valid h start last
  obtain ⟨r', -, cost', hr'⟩ := exists_stored valid h last start
  have hc := CouplingGraph.isOptimalCost_cheapestRoute distinct hr
  have hc' := CouplingGraph.isOptimalCost_cheapestRoute distinct.symm hr'
  constructor
  · intro long
    rw [cost, hc.eq_of_chain_along long]
  · rw [cost', hc'.eq_of_chain_against hn]

/-- The routes of a graph of `n` qubits have at most `2 * (n - 2) + 1` steps and cost at most the
larger of `12 * (n - 2)` and `10 * (n - 2) + 4`, which the CNOTs between the ends of a chain do
cost. They are stored if the number of pairs is in range. What the search weighs costs at most
`12 * (n - 2) + 4`, so within the limit of qubits all costs can be computed in machine words. -/
theorem stored_costs_bounded (g : CouplingGraph) :
    (g.IsValid → g.IsConnected → 2 ≤ g.size → g.size * g.size < wordBound →
      ∃ d, Device.ofGraph g = .ok d ∧ Device.ofGraphWrapped g = .ok d ∧
        (∀ v < g.size, ∀ w < g.size, v ≠ w →
          ∃ r, d.table.route v w = .ok r ∧ d.table.cost v w = .ok r.cost ∧
            r.length ≤ 2 * (g.size - 2) + 1 ∧
            r.cost ≤ max (12 * (g.size - 2)) (10 * (g.size - 2) + 4) ∧
            (g.size ≤ sizeLimit → r.wordCost? = some r.cost)) ∧
        ∀ n, g = .chain n →
          (4 ≤ n → d.table.cost 0 (n - 1) = .ok (max (12 * (n - 2)) (10 * (n - 2) + 4))) ∧
          (n ≤ 3 → d.table.cost (n - 1) 0 = .ok (max (12 * (n - 2)) (10 * (n - 2) + 4)))) ∧
    ∀ (mode : SearchMode), ∀ v < g.size, ∀ w < g.size, v ≠ w →
      ∀ part ∈ g.forwardParts mode v w,
        part.joined.completedCost ≤ 12 * (g.size - 2) + 4 ∧
        (g.size ≤ sizeLimit →
          part.joined.wordCompletedCost? = some part.joined.completedCost) := by
  constructor
  · intro valid connected large range
    obtain ⟨d, hd, wrapped⟩ := Device.exists_ofGraph valid connected range
    refine ⟨d, hd, wrapped, ?_, ?_⟩
    · intro v hv w hw hvw
      obtain ⟨r, route, cost, hr⟩ := Device.exists_stored valid hd hv hw
      have bound := (CouplingGraph.isOptimalCost_cheapestRoute hvw hr).le
      have limit : max (12 * (sizeLimit - 2)) (10 * (sizeLimit - 2) + 4) < wordBound := by decide
      refine ⟨r, route, cost, CouplingGraph.length_le_of_cheapestRoute hv hw hvw hr, bound, ?_⟩
      intro size_le
      exact Route.wordCost?_eq (by omega)
    · rintro n rfl
      obtain ⟨along, against⟩ := Device.chain_costs (show 2 ≤ n from large) hd
      refine ⟨fun long => ?_, fun short => ?_⟩
      · rw [along long, Nat.max_eq_left (by omega)]
      · rw [against, Nat.max_eq_right (by omega)]
  · intro mode v hv w hw hvw part hpart
    exact ⟨CouplingGraph.completedCost_joined_le_of_mem hv hw hvw hpart, fun size_le =>
      CouplingGraph.wordCompletedCost?_of_mem hv hw hvw size_le hpart⟩

/-- From the start of a chain of four qubits to its end, the CNOT is as costly as it can be. -/
theorem stored_costs_bounded_chain_four :
    ∃ d, Device.ofGraph (.chain 4) = .ok d ∧ d.table.cost 0 3 = .ok 24 ∧
      (∃ r, d.table.route 0 3 = .ok r ∧ r.length ≤ 5 ∧ r.wordCost? = some r.cost) ∧
      ∀ part ∈ (CouplingGraph.chain 4).forwardParts .goOn 0 3, part.joined.completedCost ≤ 28 := by
  obtain ⟨stored, weighed⟩ := stored_costs_bounded (.chain 4)
  obtain ⟨d, hd, -, routes, attained⟩ := stored (CouplingGraph.isValid_chain 4)
    (CouplingGraph.isConnected_chain 4) (by decide) (by decide)
  obtain ⟨r, route, -, length, -, words⟩ := routes 0 (by decide) 3 (by decide) (by decide)
  refine ⟨d, hd, (attained 4 rfl).1 (by decide), ⟨r, route, length, words (by decide)⟩, ?_⟩
  intro part hpart
  exact (weighed .goOn 0 (by decide) 3 (by decide) (by decide) part hpart).1

/-- Between the ends of the long chain, no route or cost is stored where arithmetic is not checked. -/
theorem stored_costs_missing_longChain :
    ∃ d, Device.ofGraphWrapped (.chain 65536) = .ok d ∧
      d.table.route 0 65535 = .error .outOfBounds ∧ d.table.cost 0 65535 = .error .outOfBounds := by
  obtain ⟨cost, route⟩ := Device.lookups_longChain (v := 0) (w := 65535) (by decide) (by decide)
  exact ⟨_, Device.ofGraph_longChain.2, route, cost⟩

end CnotRouting
