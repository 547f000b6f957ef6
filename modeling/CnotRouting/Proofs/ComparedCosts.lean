import CnotRouting.Proofs.OptimalRoutes
import Mathlib.Algebra.BigOperators.Intervals

/-!
# Compared costs

Costs on two graphs can be compared if one of them has for a pair of qubits what the other has for
some pair: the edges between them, a chain over a third qubit, and paths that cost no more. A graph
with more edges is such a graph. It never makes a CNOT costlier, except where a new edge against the
CNOT ends the search before it finds a cascade.
-/

namespace CnotRouting

namespace CouplingGraph

variable {g h : CouplingGraph} {v w m : Nat} {p : Nat → Nat}

/-- The costs of all paths from `v` to `w` with the CNOT applied on any edge of the path. -/
def pathCosts (g : CouplingGraph) (v w : Nat) : Set Nat :=
  {x | ∃ m p j, g.IsSimplePath v w m p ∧ j < m ∧ x = g.pathCost m p j}

/-- Where the least cost of a pair comes from. -/
inductive CostSource (g : CouplingGraph) (v w : Nat) : Nat → Prop where
  | native (forth : g.hasEdge v w = true) : CostSource g v w 0
  | flipped (forth : g.hasEdge v w = false) (back : g.hasEdge w v = true) : CostSource g v w 4
  | chained (forth : g.hasEdge v w = false) (back : g.hasEdge w v = false)
      (chain : ∃ i, g.hasEdge v i = true ∧ g.hasEdge i w = true) : CostSource g v w 3
  | carried {c : Nat} (forth : g.hasEdge v w = false) (back : g.hasEdge w v = false)
      (unchained : ¬ ∃ i, g.hasEdge v i = true ∧ g.hasEdge i w = true)
      (least : IsLeast (g.pathCosts v w) c) : CostSource g v w c

theorem IsOptimalCost.source {c : Nat} (hc : g.IsOptimalCost v w c) : CostSource g v w c := by
  cases forth : g.hasEdge v w with
  | true => exact hc.native forth ▸ .native forth
  | false =>
    cases back : g.hasEdge w v with
    | true => exact hc.flipped forth back ▸ .flipped forth back
    | false =>
      by_cases chain : ∃ i, g.hasEdge v i = true ∧ g.hasEdge i w = true
      · exact hc.chained forth back chain ▸ .chained forth back chain
      · exact .carried forth back chain (hc.carried forth back chain)

/-- Where no edge joins the pair, an end has to be carried over an edge and back. -/
theorem ten_le_of_isLeast {c : Nat} (least : IsLeast (g.pathCosts v w) c)
    (forth : g.hasEdge v w = false) (back : g.hasEdge w v = false) : 10 ≤ c := by
  obtain ⟨m, p, j, path, hj, rfl⟩ := least.1
  exact path.ten_le_pathCost hj forth back

/-! ### What one graph has of the other -/

/-- Whether `h` has for the pair `(v', w')` what `g` has for `(v, w)`: the edges between the two, a
chain over a third qubit, and paths that cost no more. -/
structure Covers (h g : CouplingGraph) (v' w' v w : Nat) : Prop where
  native : g.hasEdge v w = true → h.hasEdge v' w' = true
  flipped : g.hasEdge w v = true → h.hasEdge w' v' = true
  chained : (∃ i, g.hasEdge v i = true ∧ g.hasEdge i w = true) →
    ∃ i, h.hasEdge v' i = true ∧ h.hasEdge i w' = true
  carried : ∀ x ∈ g.pathCosts v w, ∃ y ∈ h.pathCosts v' w', y ≤ x

/-- What a graph covers costs no more there, except for a chain that it joins by an edge against the
CNOT. -/
theorem Covers.cost_le {v' w' c c' : Nat} (covers : Covers h g v' w' v w)
    (hc : g.IsOptimalCost v w c) (hc' : h.IsOptimalCost v' w' c') :
    c' ≤ c ∨ (c = 3 ∧ h.hasEdge w' v' = true ∧ h.hasEdge v' w' = false ∧ c' = 4) := by
  cases hc'.source with
  | native forth' => exact .inl (Nat.zero_le c)
  | flipped forth' back' =>
    cases hc.source with
    | native forth => simp [covers.native forth] at forth'
    | flipped forth back => exact .inl le_rfl
    | chained forth back chain => exact .inr ⟨rfl, back', forth', rfl⟩
    | carried forth back unchained least =>
      have := ten_le_of_isLeast least forth back
      omega
  | chained forth' back' chain' =>
    cases hc.source with
    | native forth => simp [covers.native forth] at forth'
    | flipped forth back => simp [covers.flipped back] at back'
    | chained forth back chain => exact .inl le_rfl
    | carried forth back unchained least =>
      have := ten_le_of_isLeast least forth back
      omega
  | carried forth' back' unchained' least' =>
    cases hc.source with
    | native forth => simp [covers.native forth] at forth'
    | flipped forth back => simp [covers.flipped back] at back'
    | chained forth back chain => exact absurd (covers.chained chain) unchained'
    | carried forth back unchained least =>
      obtain ⟨y, hy, le⟩ := covers.carried c least.1
      exact .inl ((least'.2 hy).trans le)

/-- There is no exception where the edges against the CNOT are the same. -/
theorem Covers.cost_le_of_flipped {v' w' c c' : Nat} (covers : Covers h g v' w' v w)
    (flipped : h.hasEdge w' v' = true → g.hasEdge w v = true) (hc : g.IsOptimalCost v w c)
    (hc' : h.IsOptimalCost v' w' c') : c' ≤ c := by
  rcases covers.cost_le hc hc' with le | ⟨three, back', -, -⟩
  · exact le
  · have joined := flipped back'
    cases hc.source with
    | native forth => cases three
    | flipped forth back => cases three
    | chained forth back chain => simp [joined] at back
    | carried forth back unchained least => simp [joined] at back

/-- Two graphs that cover each other for a pair have the same least cost there. -/
theorem Covers.cost_eq {v' w' c c' : Nat} (covers : Covers h g v' w' v w)
    (covered : Covers g h v w v' w') (hc : g.IsOptimalCost v w c)
    (hc' : h.IsOptimalCost v' w' c') : c' = c :=
  Nat.le_antisymm (covers.cost_le_of_flipped covered.flipped hc hc')
    (covered.cost_le_of_flipped covers.flipped hc' hc)

/-! ### Graphs in which the edges of another are found -/

/-- Whether `h` has an edge from `f v` to `f w` for every edge of `g` from `v` to `w`. -/
def Keeps (h g : CouplingGraph) (f : Nat → Nat) : Prop :=
  ∀ v w, g.hasEdge v w = true → h.hasEdge (f v) (f w) = true

section

variable {f : Nat → Nat} (keeps : Keeps h g f) (inj : f.Injective)

include keeps inj

theorem Keeps.adj (edge : g.undirected.Adj v w) : h.undirected.Adj (f v) (f w) := by
  refine (SimpleGraph.fromRel_adj _ _ _).2 ⟨inj.ne edge.ne, ?_⟩
  exact (hasEdge_of_adj edge).imp (keeps v w) (keeps w v)

theorem Keeps.reachable (path : g.undirected.Reachable v w) :
    h.undirected.Reachable (f v) (f w) :=
  path.map ⟨f, keeps.adj inj⟩

theorem Keeps.isSimplePath (path : g.IsSimplePath v w m p) :
    h.IsSimplePath (f v) (f w) m fun k => f (p k) where
  first := by rw [path.first]
  last := by rw [path.last]
  joined := fun k hk => keeps.adj inj (path.joined k hk)
  simple := fun k hk l hl heq => path.simple k hk l hl (inj heq)

omit inj in
theorem Keeps.pathCost_le (m : Nat) (p : Nat → Nat) (j : Nat) :
    h.pathCost m (fun k => f (p k)) j ≤ g.pathCost m p j := by
  have apply_le : ∀ x y, h.applyCost (f x) (f y) ≤ g.applyCost x y := by
    intro x y
    unfold applyCost
    have := keeps x y
    split <;> split <;> simp_all
  have carry_le : ∀ x y, h.carryCost (f x) (f y) ≤ g.carryCost x y := by
    intro x y
    unfold carryCost
    have := keeps y x
    split <;> split <;> simp_all
  apply Finset.sum_le_sum
  intro k _
  split
  · exact apply_le _ _
  · exact Nat.mul_le_mul_left 2 (carry_le _ _)

theorem Keeps.covers (v w : Nat) : Covers h g (f v) (f w) v w where
  native := keeps v w
  flipped := keeps w v
  chained := fun ⟨i, hvi, hiw⟩ => ⟨f i, keeps v i hvi, keeps i w hiw⟩
  carried := by
    rintro x ⟨m, p, j, path, hj, rfl⟩
    exact ⟨_, ⟨m, _, j, keeps.isSimplePath inj path, hj, rfl⟩, keeps.pathCost_le m p j⟩

end

/-! ### Graphs with all edges turned round -/

namespace IsSimplePath

/-- A path can be walked from its end. -/
theorem backward (path : g.IsSimplePath v w m p) : g.IsSimplePath w v m fun k => p (m - k) where
  first := by simpa using path.last
  last := by simpa using path.first
  joined := by
    intro k hk
    have edge := path.joined (m - (k + 1)) (by omega)
    rw [show m - (k + 1) + 1 = m - k by omega] at edge
    exact edge.symm
  simple := by
    intro k hk l hl heq
    have := path.simple (m - k) (by omega) (m - l) (by omega) heq
    omega

end IsSimplePath

/-- Whether `h` has the edges of `g` turned round. -/
def Turns (h g : CouplingGraph) : Prop := ∀ v w, h.hasEdge v w = g.hasEdge w v

theorem Turns.symm (turns : Turns h g) : Turns g h := fun v w => (turns w v).symm

theorem Turns.undirected_eq (turns : Turns h g) : h.undirected = g.undirected := by
  ext v w
  simp only [undirected, SimpleGraph.fromRel_adj, turns v w, turns w v, or_comm]

/-- On a path that is walked from its end, with all edges turned round, the control is carried where
the target was, at the same costs. -/
theorem Turns.pathCost_backward (turns : Turns h g) {j : Nat} (hj : j < m) (p : Nat → Nat) :
    h.pathCost m (fun k => p (m - k)) (m - 1 - j) = g.pathCost m p j := by
  rw [pathCost, pathCost, ← Finset.sum_range_reflect]
  apply Finset.sum_congr rfl
  intro k hk
  have inside := Finset.mem_range.1 hk
  have same : m - 1 - k = m - 1 - j ↔ k = j := by omega
  have here : m - (m - 1 - k) = k + 1 := by omega
  have next : m - (m - 1 - k + 1) = k := by omega
  simp only [same, here, next, applyCost, carryCost, turns _ _]

theorem Turns.covers (turns : Turns h g) (v w : Nat) : Covers h g w v v w where
  native := fun edge => (turns w v).trans edge
  flipped := fun edge => (turns v w).trans edge
  chained := fun ⟨i, hvi, hiw⟩ => ⟨i, (turns w i).trans hiw, (turns i v).trans hvi⟩
  carried := by
    rintro x ⟨m, p, j, path, hj, rfl⟩
    have back : h.IsSimplePath w v m fun k => p (m - k) :=
      { path.backward with joined := turns.undirected_eq ▸ path.backward.joined }
    exact ⟨_, ⟨m, _, m - 1 - j, back, by omega, rfl⟩, (turns.pathCost_backward hj p).le⟩

end CouplingGraph

/-- More edges never make a CNOT costlier, except exactly where a chain was joined to a cascade at
the cost 3 and there is a new edge against the CNOT but none along it: the CNOT then costs 4. The
number of pairs of the graphs is in range. -/
theorem added_edges_cost_no_more {g h : CouplingGraph} (valid : g.IsValid) (valid' : h.IsValid)
    (connected : g.IsConnected) (size : h.size = g.size) (range : g.size * g.size < wordBound)
    (more : ∀ v w, g.hasEdge v w = true → h.hasEdge v w = true) :
    ∃ d d', Device.ofGraph g = .ok d ∧ Device.ofGraphWrapped g = .ok d ∧
      Device.ofGraph h = .ok d' ∧ Device.ofGraphWrapped h = .ok d' ∧
      ∀ v < g.size, ∀ w < g.size, v ≠ w → ∃ c c', d.table.cost v w = .ok c ∧
        d'.table.cost v w = .ok c' ∧
        (c' ≤ c ↔ ¬ (c = 3 ∧ h.hasEdge w v = true ∧ h.hasEdge v w = false)) ∧
        (c = 3 ∧ h.hasEdge w v = true ∧ h.hasEdge v w = false → c' = 4) := by
  have keeps : CouplingGraph.Keeps h g id := more
  have connected' : h.IsConnected := by
    rw [CouplingGraph.IsConnected, size]
    intro v hv w hw
    exact keeps.reachable Function.injective_id (connected v hv w hw)
  obtain ⟨d, hd, wrapped⟩ := Device.exists_ofGraph valid connected range
  obtain ⟨d', hd', wrapped'⟩ := Device.exists_ofGraph valid' connected' (size ▸ range)
  refine ⟨d, d', hd, wrapped, hd', wrapped', ?_⟩
  intro v hv w hw hvw
  obtain ⟨r, -, cost, hr⟩ := Device.exists_stored valid hd hv hw
  obtain ⟨r', -, cost', hr'⟩ := Device.exists_stored valid' hd' (size ▸ hv) (size ▸ hw)
  have hc := CouplingGraph.isOptimalCost_cheapestRoute hvw hr
  have hc' := CouplingGraph.isOptimalCost_cheapestRoute hvw hr'
  have le := (keeps.covers Function.injective_id v w).cost_le hc hc'
  have four : h.hasEdge w v = true → h.hasEdge v w = false → r'.cost = 4 := fun back forth =>
    hc'.flipped forth back
  refine ⟨r.cost, r'.cost, cost, cost', ⟨?_, ?_⟩, fun ⟨_, back, forth⟩ => four back forth⟩
  · rintro le ⟨three, back, forth⟩
    have := four back forth
    omega
  · intro other
    rcases le with le | ⟨three, back, forth, -⟩
    · exact le
    · exact absurd ⟨three, back, forth⟩ other

/-- An edge from the end of a chain to its start takes the place of the cascade, and is native itself. -/
theorem added_edges_cost_no_more_triangle :
    ∃ d d', Device.ofGraph (.chain 3) = .ok d ∧
      Device.ofGraph (.ofPairs 3 [(0, 1), (1, 2), (2, 0)]) = .ok d' ∧
      d.table.cost 0 2 = .ok 3 ∧ d'.table.cost 0 2 = .ok 4 := by
  have more : ∀ v < 3, ∀ w < 3, (CouplingGraph.chain 3).hasEdge v w = true →
      (CouplingGraph.ofPairs 3 [(0, 1), (1, 2), (2, 0)]).hasEdge v w = true := by decide
  have valid : (CouplingGraph.ofPairs 3 [(0, 1), (1, 2), (2, 0)]).IsValid :=
    CouplingGraph.isValid_ofPairs (by decide)
  obtain ⟨d, d', hd, -, hd', -, compared⟩ := added_edges_cost_no_more
    (CouplingGraph.isValid_chain 3) valid (CouplingGraph.isConnected_chain 3) rfl (by decide)
    fun v w edge =>
      have inside := CouplingGraph.lt_size_of_hasEdge edge
      more v inside.1 w inside.2 edge
  obtain ⟨c, c', cost, cost', -, four⟩ := compared 0 (by decide) 2 (by decide) (by decide)
  have value : (Device.ofGraph (.chain 3) >>= fun d => d.table.cost 0 2) = .ok 3 := by
    apply ok_of_toOption
    decide +kernel
  rw [hd] at value
  obtain rfl : 3 = c := Except.ok.inj (value.symm.trans cost)
  rw [four ⟨rfl, by decide, by decide⟩] at cost'
  exact ⟨d, d', hd, hd', cost, cost'⟩

/-- Where arithmetic is not checked, the table of the long chain has no cost of the cascade that the
comparison excepts. -/
theorem compared_costs_missing_longChain :
    let g := CouplingGraph.chain 65536
    g.IsValid ∧ g.IsConnected ∧ Device.ofGraph g = .error .outOfBounds ∧
      ∃ d, Device.ofGraphWrapped g = .ok d ∧ d.table.cost 0 2 = .error .outOfBounds := by
  obtain ⟨checked, wrapped⟩ := Device.ofGraph_longChain
  exact ⟨CouplingGraph.isValid_chain 65536, CouplingGraph.isConnected_chain 65536, checked, _,
    wrapped, (Device.lookups_longChain (by decide) (by decide)).1⟩

end CnotRouting
