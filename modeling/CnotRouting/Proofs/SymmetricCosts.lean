import CnotRouting.Proofs.ComparedCosts

/-!
# Costs under symmetries

Renaming the qubits of a graph renames its table: the search meets the qubits in another order, but
the least costs are those of the paths, which are renamed with them. Turning all edges round swaps
the control and the target of every CNOT.
-/

namespace CnotRouting

/-! ### Renamed qubits -/

/-- A permutation of the qubits below `n`, on all numbers. The others stay where they are. -/
def extended {n : Nat} (π : Equiv.Perm (Fin n)) : Equiv.Perm Nat := π.extendDomain Fin.equivSubtype

theorem extended_val {n : Nat} (π : Equiv.Perm (Fin n)) (q : Fin n) : extended π q = π q :=
  π.extendDomain_apply_image Fin.equivSubtype q

theorem extended_lt {n q : Nat} (π : Equiv.Perm (Fin n)) (hq : q < n) : extended π q < n := by
  rw [extended_val π ⟨q, hq⟩]
  exact (π ⟨q, hq⟩).isLt

theorem extended_symm_lt {n q : Nat} (π : Equiv.Perm (Fin n)) (hq : q < n) :
    (extended π).symm q < n := by
  obtain ⟨v, hv⟩ := π.surjective ⟨q, hq⟩
  have there : extended π v = q := by rw [extended_val, hv]
  rw [← there, Equiv.symm_apply_apply]
  exact v.isLt

namespace CouplingGraph

variable {g : CouplingGraph}

/-- The graph of the edges that `f` makes of those of `g`. -/
def mapEdges (g : CouplingGraph) (f : Nat × Nat → Nat × Nat) : CouplingGraph :=
  ofPairs g.size (g.edges.map f)

/-- The graph with its qubits renamed. -/
def renamed (g : CouplingGraph) (π : Equiv.Perm (Fin g.size)) : CouplingGraph :=
  g.mapEdges (Prod.map (extended π) (extended π))

/-- The graph with all its edges turned round. -/
def reversed (g : CouplingGraph) : CouplingGraph := g.mapEdges Prod.swap

section

variable {f : Nat × Nat → Nat × Nat} (valid : g.IsValid)
  (joins : ∀ e, JoinsBelow g.size e → JoinsBelow g.size (f e))

include valid joins

theorem IsValid.joins_mapEdges : ∀ e ∈ g.edges.map f, JoinsBelow g.size e := by
  intro e he
  obtain ⟨⟨v, w⟩, old, rfl⟩ := List.mem_map.1 he
  have edge := (mem_edges valid.complete).1 old
  have inside := lt_size_of_hasEdge edge
  exact joins _ ⟨inside.1, inside.2, valid.ne edge⟩

theorem IsValid.mapEdges : (g.mapEdges f).IsValid := isValid_ofPairs (valid.joins_mapEdges joins)

theorem IsValid.hasEdge_mapEdges (inj : f.Injective) (v w : Nat) :
    (g.mapEdges f).hasEdge (f (v, w)).1 (f (v, w)).2 = true ↔ g.hasEdge v w = true := by
  have inside : ∀ e ∈ g.edges.map f, e.1 < g.size ∧ e.2 < g.size := fun e he =>
    ⟨(valid.joins_mapEdges joins e he).1, (valid.joins_mapEdges joins e he).2.1⟩
  calc (g.mapEdges f).hasEdge (f (v, w)).1 (f (v, w)).2 = true
      ↔ f (v, w) ∈ g.edges.map f := hasEdge_ofPairs inside
    _ ↔ (v, w) ∈ g.edges := List.mem_map_of_injective inj
    _ ↔ g.hasEdge v w = true := mem_edges valid.complete

end

theorem joins_renamed {n : Nat} (π : Equiv.Perm (Fin n)) (e : Nat × Nat) (h : JoinsBelow n e) :
    JoinsBelow n (Prod.map (extended π) (extended π) e) :=
  ⟨extended_lt π h.1, extended_lt π h.2.1, (extended π).injective.ne h.2.2⟩

theorem joins_reversed {n : Nat} (e : Nat × Nat) (h : JoinsBelow n e) : JoinsBelow n e.swap :=
  ⟨h.2.1, h.1, h.2.2.symm⟩

namespace IsValid

variable (valid : g.IsValid) (π : Equiv.Perm (Fin g.size))

include valid

theorem renamed : (g.renamed π).IsValid := valid.mapEdges (joins_renamed π)

theorem reversed : g.reversed.IsValid := valid.mapEdges joins_reversed

/-- The edges of a renamed graph are those of the graph, between the renamed qubits. -/
theorem hasEdge_renamed (v w : Nat) :
    (g.renamed π).hasEdge (extended π v) (extended π w) = true ↔ g.hasEdge v w = true :=
  valid.hasEdge_mapEdges (joins_renamed π) ((extended π).injective.prodMap (extended π).injective)
    v w

theorem turns_reversed : Turns g.reversed g := fun v w =>
  Bool.eq_iff_iff.2 (valid.hasEdge_mapEdges joins_reversed Prod.swap_injective w v)

theorem keeps_renamed : Keeps (g.renamed π) g (extended π) := fun v w =>
  (valid.hasEdge_renamed π v w).2

theorem keeps_of_renamed : Keeps g (g.renamed π) (extended π).symm := by
  intro v w edge
  apply (valid.hasEdge_renamed π _ _).1
  rwa [Equiv.apply_symm_apply, Equiv.apply_symm_apply]

end IsValid

theorem IsConnected.renamed (connected : g.IsConnected) (valid : g.IsValid)
    (π : Equiv.Perm (Fin g.size)) : (g.renamed π).IsConnected := by
  intro v hv w hw
  have path := connected _ (extended_symm_lt π hv) _ (extended_symm_lt π hw)
  have there := (valid.keeps_renamed π).reachable (extended π).injective path
  rwa [Equiv.apply_symm_apply, Equiv.apply_symm_apply] at there

theorem IsConnected.reversed (connected : g.IsConnected) (valid : g.IsValid) :
    g.reversed.IsConnected := by
  intro v hv w hw
  rw [valid.turns_reversed.undirected_eq]
  exact connected v hv w hw

/-- Routes for pairs that two graphs cover for each other have the same cost. -/
theorem Covers.cost_route_eq {h : CouplingGraph} {v w v' w' : Nat} {r r' : Route}
    (covers : Covers h g v' w' v w) (covered : Covers g h v w v' w') (same : v = w ↔ v' = w')
    (hr : g.cheapestRoute v w = .ok r) (hr' : h.cheapestRoute v' w' = .ok r') :
    r'.cost = r.cost := by
  by_cases hvw : v = w
  · have entry := Device.isEntry_of_cheapestRoute hr
    have entry' := Device.isEntry_of_cheapestRoute hr'
    obtain rfl : r = [] := by simpa [IsEntry, hvw] using entry
    obtain rfl : r' = [] := by simpa [IsEntry, same.1 hvw] using entry'
    rfl
  · exact covers.cost_eq covered (isOptimalCost_cheapestRoute hvw hr)
      (isOptimalCost_cheapestRoute (mt same.2 hvw) hr')

end CouplingGraph

/-- If a graph covers every pair of another at a place of its own, and is covered there, the table
has the same costs at these places. -/
theorem Device.same_costs {g h : CouplingGraph} {d d' : Device} (valid : g.IsValid)
    (valid' : h.IsValid) (hd : ofGraph g = .ok d) (hd' : ofGraph h = .ok d') {v w v' w' : Nat}
    (hv : v < g.size) (hw : w < g.size) (hv' : v' < h.size) (hw' : w' < h.size)
    (covers : CouplingGraph.Covers h g v' w' v w) (covered : CouplingGraph.Covers g h v w v' w')
    (same : v = w ↔ v' = w') :
    ∃ c, d.table.cost v w = .ok c ∧ d'.table.cost v' w' = .ok c := by
  obtain ⟨r, -, cost, hr⟩ := exists_stored valid hd hv hw
  obtain ⟨r', -, cost', hr'⟩ := exists_stored valid' hd' hv' hw'
  exact ⟨r.cost, cost, covers.cost_route_eq covered same hr hr' ▸ cost'⟩

/-- The table of a renamed graph is the renamed table, and the table of the graph with all edges
turned round is the table with controls and targets swapped, if the number of pairs is in range. -/
theorem costs_follow_symmetries {g : CouplingGraph} (valid : g.IsValid) (connected : g.IsConnected)
    (range : g.size * g.size < wordBound) :
    ∃ d, Device.ofGraph g = .ok d ∧ Device.ofGraphWrapped g = .ok d ∧
      (∀ π : Equiv.Perm (Fin g.size), ∃ d', Device.ofGraph (g.renamed π) = .ok d' ∧
        Device.ofGraphWrapped (g.renamed π) = .ok d' ∧
        ∀ v w : Fin g.size, ∃ c, d.table.cost v w = .ok c ∧ d'.table.cost (π v) (π w) = .ok c) ∧
      ∃ d', Device.ofGraph g.reversed = .ok d' ∧ Device.ofGraphWrapped g.reversed = .ok d' ∧
        ∀ v w : Fin g.size, ∃ c, d.table.cost v w = .ok c ∧ d'.table.cost w v = .ok c := by
  obtain ⟨d, hd, wrapped⟩ := Device.exists_ofGraph valid connected range
  refine ⟨d, hd, wrapped, ?_, ?_⟩
  · intro π
    obtain ⟨d', hd', wrapped'⟩ :=
      Device.exists_ofGraph (valid.renamed π) (connected.renamed valid π) range
    refine ⟨d', hd', wrapped', fun v w => ?_⟩
    have covers := (valid.keeps_renamed π).covers (extended π).injective v w
    have covered := (valid.keeps_of_renamed π).covers (extended π).symm.injective
      (extended π v) (extended π w)
    rw [Equiv.symm_apply_apply, Equiv.symm_apply_apply] at covered
    rw [extended_val, extended_val] at covers covered
    apply Device.same_costs valid (valid.renamed π) hd hd' v.isLt w.isLt (π v).isLt (π w).isLt
      covers covered
    rw [Fin.val_inj, Fin.val_inj, π.injective.eq_iff]
  · obtain ⟨d', hd', wrapped'⟩ :=
      Device.exists_ofGraph valid.reversed (connected.reversed valid) range
    have turns := valid.turns_reversed
    refine ⟨d', hd', wrapped', fun v w => ?_⟩
    exact Device.same_costs valid valid.reversed hd hd' v.isLt w.isLt w.isLt v.isLt
      (turns.covers v w) (turns.symm.covers w v) eq_comm

/-- The costliest pair of a chain of three qubits, after its first two qubits have changed places and
after its edges have been turned round. -/
theorem costs_follow_symmetries_chain_three :
    (∃ d, Device.ofGraph ((CouplingGraph.chain 3).renamed (Equiv.swap (0 : Fin 3) (1 : Fin 3))) = .ok d ∧
      d.table.cost 2 1 = .ok 14) ∧
    ∃ d, Device.ofGraph (CouplingGraph.chain 3).reversed = .ok d ∧ d.table.cost 0 2 = .ok 14 := by
  obtain ⟨d, hd, -, renamed, d₂, hd₂, -, turned⟩ := costs_follow_symmetries
    (CouplingGraph.isValid_chain 3) (CouplingGraph.isConnected_chain 3) (by decide)
  obtain ⟨d₁, hd₁, -, swapped⟩ := renamed (Equiv.swap (0 : Fin 3) (1 : Fin 3))
  have value : (Device.ofGraph (.chain 3) >>= fun d => d.table.cost 2 0) = .ok 14 := by
    apply ok_of_toOption
    decide +kernel
  rw [hd] at value
  obtain ⟨c, cost, cost₁⟩ := swapped (2 : Fin 3) (0 : Fin 3)
  obtain ⟨c', cost', cost₂⟩ := turned (2 : Fin 3) (0 : Fin 3)
  obtain rfl : 14 = c := Except.ok.inj (value.symm.trans cost)
  obtain rfl : 14 = c' := Except.ok.inj (value.symm.trans cost')
  exact ⟨⟨d₁, hd₁, cost₁⟩, d₂, hd₂, cost₂⟩

/-- The table of the long chain has no cost that another one could follow where arithmetic is not
checked. -/
theorem costs_fail_longChain :
    let g := CouplingGraph.chain 65536
    g.IsValid ∧ g.IsConnected ∧ ∃ d, Device.ofGraphWrapped g = .ok d ∧
      ∀ v < 65536, ∀ w < 65536, d.table.cost v w = .error .outOfBounds :=
  ⟨CouplingGraph.isValid_chain 65536, CouplingGraph.isConnected_chain 65536, _,
    Device.ofGraph_longChain.2, fun _ hv _ hw => (Device.lookups_longChain hv hw).1⟩

end CnotRouting
