import CnotRouting.Proofs.PathCosts
import CnotRouting.Proofs.WrappedTables

/-!
# Optimal routes

The cheapest route of a pair costs nothing along an edge, 4 against an edge, and 3 along a chain of
two edges that is joined to a cascade. For every other pair it costs as little as any simple path
between its qubits, with the CNOT applied on any edge of the path.
-/

namespace CnotRouting

theorem Route.cost_undone (r : Route) : cost (r.reverse.map Step.inverse) = cost r := by
  induction r with
  | nil => rfl
  | cons s r ih =>
    simp only [List.reverse_cons, List.map_append, List.map_cons, List.map_nil, cost_append, ih,
      cost_cons, cost_nil, Step.cost_inverse]
    omega

/-- A completed route costs what its forward part was said to cost when completed. -/
theorem Route.cost_completed (r : Route) : cost r.completed = r.completedCost := by
  rcases List.eq_nil_or_concat r with rfl | ⟨moves, t, rfl⟩
  · rfl
  · rw [List.concat_eq_append, completed_concat, completedCost_concat, cost_append, cost_cons,
      cost_undone]
    omega

namespace CouplingGraph

/-- Whether `c` is the least cost of the CNOT from `v` to `w`. -/
structure IsOptimalCost (g : CouplingGraph) (v w c : Nat) : Prop where
  native : g.hasEdge v w = true → c = 0
  flipped : g.hasEdge v w = false → g.hasEdge w v = true → c = 4
  chained : g.hasEdge v w = false → g.hasEdge w v = false →
    (∃ i, g.hasEdge v i = true ∧ g.hasEdge i w = true) → c = 3
  carried : g.hasEdge v w = false → g.hasEdge w v = false →
    (¬ ∃ i, g.hasEdge v i = true ∧ g.hasEdge i w = true) →
    IsLeast {x | ∃ m p j, g.IsSimplePath v w m p ∧ j < m ∧ x = g.pathCost m p j} c

variable {g : CouplingGraph} {v w : Nat} {r : Route}

/-- The cheapest forward part, completed, costs no more than any other would. -/
theorem isLeast_cheapestForwardPart {mode : SearchMode}
    (h : g.cheapestForwardPart? mode v w = some r) :
    IsLeast {x | ∃ part ∈ g.forwardParts mode v w, x = part.joined.completedCost}
      r.completedCost := by
  rw [cheapestForwardPart?_eq] at h
  obtain ⟨part, hpart, rfl⟩ := List.mem_map.1 (mem_of_firstBest?_eq_some h)
  refine ⟨⟨part, hpart, rfl⟩, ?_⟩
  rintro x ⟨other, hother, rfl⟩
  exact le_of_firstLeast?_eq_some h _ (List.mem_map_of_mem hother)

/-- The cheapest route costs no more than any other forward part would. -/
theorem isLeast_cheapestRoute (hvw : v ≠ w) (h : g.cheapestRoute v w = .ok r) :
    IsLeast {x | ∃ part ∈ g.forwardParts .stopAtEdge v w, x = part.joined.completedCost} r.cost := by
  obtain ⟨part, hpart, rfl⟩ := exists_of_cheapestRoute hvw h
  rw [Route.cost_completed]
  exact isLeast_cheapestForwardPart hpart

/-- Every forward part for a pair costs at least as much as some path between its qubits. -/
theorem exists_pathCost_le_of_mem {mode : SearchMode} (hvw : v ≠ w) {part : Route}
    (h : part ∈ g.forwardParts mode v w) :
    ∃ m p j, g.IsSimplePath v w m p ∧ j < m ∧ g.pathCost m p j ≤ part.completedCost := by
  obtain ⟨m, p, j, path, hj, -, le⟩ := exists_pathCost_le (isForwardPart_of_mem h)
    (g.nodup_othersThan v w) (by simp [mem_othersThan]) (by simp [mem_othersThan]) hvw
  exact ⟨m, p, j, path, hj, le⟩

/-- For every path between two qubits, some forward part costs no more. -/
theorem exists_mem_le_pathCost {m j : Nat} {p : Nat → Nat} (path : g.IsSimplePath v w m p)
    (hj : j < m) :
    ∃ part ∈ g.forwardParts .stopAtEdge v w, part.completedCost ≤ g.pathCost m p j := by
  apply exists_le_pathCost path hj
  intro k hk hkm
  rw [mem_othersThan]
  refine ⟨(lt_size_of_adj (path.joined k hkm)).1, ?_, ?_⟩
  · intro heq
    have := path.simple k (by omega) 0 (by omega) (heq.trans path.first.symm)
    omega
  · intro heq
    have := path.simple k (by omega) m (by omega) (heq.trans path.last.symm)
    omega

/-- Where no edge joins the pair, an end has to be carried. -/
theorem IsSimplePath.ten_le_pathCost {m j : Nat} {p : Nat → Nat} (path : g.IsSimplePath v w m p)
    (hj : j < m) (forth : g.hasEdge v w = false) (back : g.hasEdge w v = false) :
    10 ≤ g.pathCost m p j := by
  have several : m ≠ 1 := by
    rintro rfl
    rcases hasEdge_of_adj path.adj_of_one with edge | edge
    · simp [forth] at edge
    · simp [back] at edge
  exact g.ten_le_pathCost (by omega) p j

theorem ten_le_completedCost {mode : SearchMode} (hvw : v ≠ w) (forth : g.hasEdge v w = false)
    (back : g.hasEdge w v = false) {part : Route} (h : part ∈ g.forwardParts mode v w) :
    10 ≤ part.completedCost := by
  obtain ⟨m, p, j, path, hj, le⟩ := exists_pathCost_le_of_mem hvw h
  exact (path.ten_le_pathCost hj forth back).trans le

/-- A chain of two edges between a pair is found and joined to a cascade, unless the search stops at
an edge between the pair. -/
theorem exists_cascade {mode : SearchMode} (forth : g.hasEdge v w = false)
    (goes_on : mode = .stopAtEdge → g.hasEdge w v = false) {i : Nat}
    (hvi : g.hasEdge v i = true) (hiw : g.hasEdge i w = true) :
    ∃ part ∈ g.forwardParts mode v w, part.joined = [.cascade v i w] := by
  have free : i ∈ g.othersThan v w := by
    rw [mem_othersThan]
    refine ⟨(lt_size_of_hasEdge hvi).2, ?_, ?_⟩
    · rintro rfl
      simp [forth] at hiw
    · rintro rfl
      simp [forth] at hvi
  have stops : mode = .stopAtEdge → g.terminalSteps v w = [] := by
    intro stopping
    simp [terminalSteps, forth, goes_on stopping]
  have apply_there : ⟨.native, i, w, none⟩ ∈ g.terminalSteps i w :=
    mem_terminalSteps.2 (.inl ⟨hiw, rfl⟩)
  refine ⟨_, cons_mem_forwardPartsFrom stops free
    (mem_movesTo.2 (.inl ⟨hvi, rfl, rfl, rfl⟩)) (singleton_mem_forwardPartsFrom apply_there), ?_⟩
  simp [Route.joined]

theorem native_mem_forwardParts (mode : SearchMode) (forth : g.hasEdge v w = true) :
    [⟨.native, v, w, none⟩] ∈ g.forwardParts mode v w :=
  singleton_mem_forwardPartsFrom (mem_terminalSteps.2 (.inl ⟨forth, rfl⟩))

/-- The search that stops at an edge against the CNOT finds nothing but the flip. -/
theorem forwardParts_eq_flip (forth : g.hasEdge v w = false) (back : g.hasEdge w v = true) :
    g.forwardParts .stopAtEdge v w = [[⟨.flip, v, w, none⟩]] := by
  rw [forwardParts, forwardPartsFrom_eq]
  simp [terminalSteps, forth, back]

/-- The cheapest route of a pair has the least cost. -/
theorem isOptimalCost_cheapestRoute (hvw : v ≠ w) (h : g.cheapestRoute v w = .ok r) :
    g.IsOptimalCost v w r.cost := by
  obtain ⟨⟨best, hbest, cost⟩, least⟩ := isLeast_cheapestRoute hvw h
  have at_most : ∀ part ∈ g.forwardParts .stopAtEdge v w, r.cost ≤ part.joined.completedCost :=
    fun part hpart => least ⟨part, hpart, rfl⟩
  constructor
  · intro forth
    exact Nat.le_zero.1 (at_most _ (native_mem_forwardParts .stopAtEdge forth))
  · intro forth back
    obtain rfl : best = [⟨.flip, v, w, none⟩] := by
      simpa [forwardParts_eq_flip forth back] using hbest
    exact cost
  · rintro forth back ⟨i, hvi, hiw⟩
    obtain ⟨part, hpart, cascade⟩ := exists_cascade forth (fun _ => back) hvi hiw
    have upper := at_most part hpart
    rw [cascade] at upper
    rcases (isForwardPart_of_mem hbest).joined_eq with same | ⟨i', -, -, cascade'⟩
    · have lower := ten_le_completedCost hvw forth back hbest
      have three : Route.completedCost [.cascade v i w] = 3 := rfl
      rw [cost, same, three] at upper
      omega
    · rw [cost, cascade']
      rfl
  · intro _ _ unchained
    have unjoined : ∀ part ∈ g.forwardParts .stopAtEdge v w, part.joined = part := by
      intro part hpart
      rcases (isForwardPart_of_mem hpart).joined_eq with same | ⟨i, hvi, hiw, -⟩
      · exact same
      · exact absurd ⟨i, hvi, hiw⟩ unchained
    have below : ∀ m p j, g.IsSimplePath v w m p → j < m → r.cost ≤ g.pathCost m p j := by
      intro m p j path hj
      obtain ⟨part, hpart, le⟩ := exists_mem_le_pathCost path hj
      have := at_most part hpart
      rw [unjoined part hpart] at this
      exact this.trans le
    constructor
    · obtain ⟨m, p, j, path, hj, le⟩ := exists_pathCost_le_of_mem hvw hbest
      rw [unjoined best hbest] at cost
      exact ⟨m, p, j, path, hj, Nat.le_antisymm (below m p j path hj) (cost.symm ▸ le)⟩
    · rintro x ⟨m, p, j, path, hj, rfl⟩
      exact below m p j path hj

end CouplingGraph

/-- Every valid connected graph with a number of pairs that is in range has a device, whose table
keeps the least cost of every pair of distinct qubits. -/
theorem table_cost_isOptimal {g : CouplingGraph} (valid : g.IsValid) (connected : g.IsConnected)
    (range : g.size * g.size < wordBound) :
    ∃ d, Device.ofGraph g = .ok d ∧ Device.ofGraphWrapped g = .ok d ∧
      ∀ v < g.size, ∀ w < g.size, v ≠ w →
        ∃ c, d.table.cost v w = .ok c ∧ g.IsOptimalCost v w c := by
  obtain ⟨d, hd, wrapped⟩ := Device.exists_ofGraph valid connected range
  obtain rfl := Device.graph_of_ofGraph hd
  have consistent := Device.isConsistent_of_ofGraph valid hd
  refine ⟨d, hd, wrapped, ?_⟩
  intro v hv w hw hvw
  obtain ⟨r, hr, -⟩ := consistent.route_eq_ok hv hw
  refine ⟨r.cost, consistent.cost_eq_ok hr, ?_⟩
  exact CouplingGraph.isOptimalCost_cheapestRoute hvw (Device.cheapestRoute_of_ofGraph hd hr)

theorem table_cost_isOptimal_chain_three :
    ∃ d, Device.ofGraph (.chain 3) = .ok d ∧ d.table.cost 2 0 = .ok 14 ∧
      (CouplingGraph.chain 3).IsOptimalCost 2 0 14 := by
  obtain ⟨d, hd, -, least⟩ := table_cost_isOptimal (CouplingGraph.isValid_chain 3)
    (CouplingGraph.isConnected_chain 3) (by decide)
  obtain ⟨c, hc, optimal⟩ := least 2 (by decide) 0 (by decide) (by decide)
  have value : (Device.ofGraph (.chain 3) >>= fun d => d.table.cost 2 0) = .ok 14 := by
    apply ok_of_toOption
    decide +kernel
  rw [hd] at value
  obtain rfl : 14 = c := Except.ok.inj (value.symm.trans hc)
  exact ⟨d, hd, hc, optimal⟩

/-- Of the long chain no table is built where arithmetic is checked. Where it is not, the table does
not even have the cost of an edge. -/
theorem table_cost_fails_longChain :
    let g := CouplingGraph.chain 65536
    g.IsValid ∧ g.IsConnected ∧ g.hasEdge 0 1 = true ∧ Device.ofGraph g = .error .outOfBounds ∧
      ∃ d, Device.ofGraphWrapped g = .ok d ∧ d.table.cost 0 1 = .error .outOfBounds := by
  obtain ⟨checked, wrapped⟩ := Device.ofGraph_longChain
  exact ⟨CouplingGraph.isValid_chain 65536, CouplingGraph.isConnected_chain 65536,
    CouplingGraph.hasEdge_chain.2 ⟨rfl, by decide⟩, checked, _, wrapped,
    (Device.lookups_longChain (by decide) (by decide)).1⟩

end CnotRouting
