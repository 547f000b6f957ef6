import CnotRouting.Proofs.ConnectedGraphs
import Mathlib.Algebra.Order.BigOperators.Group.Finset

/-!
# The cost of a path

A CNOT between the ends of a path can be applied on any of its edges: the control is carried over
the edges before that one, the target over those after it, and both are carried back. Every forward
part of the search does so along a path over free qubits. The search leaves a path as soon as an
edge joins the ends, but what it finds there is never more costly than going on.
-/

namespace CnotRouting

namespace CouplingGraph

variable (g : CouplingGraph)

/-- The cost of carrying an end over the edge between `x` and `y`, the first on the control's side. -/
def carryCost (x y : Nat) : Nat := if g.hasEdge y x then 5 else 6

/-- The cost of applying the CNOT from `x` to `y` on the edge between them. -/
def applyCost (x y : Nat) : Nat := if g.hasEdge x y then 0 else 4

/-- The cost of a path of `m` edges when the CNOT is applied on edge number `j`. -/
def pathCost (m : Nat) (p : Nat → Nat) (j : Nat) : Nat :=
  ∑ k ∈ Finset.range m,
    if k = j then g.applyCost (p k) (p (k + 1)) else 2 * g.carryCost (p k) (p (k + 1))

/-- A path from `v` to `w` over `m` edges in either direction that meets no qubit twice. -/
structure IsSimplePath (v w m : Nat) (p : Nat → Nat) : Prop where
  first : p 0 = v
  last : p m = w
  joined : ∀ k < m, g.undirected.Adj (p k) (p (k + 1))
  simple : ∀ k ≤ m, ∀ l ≤ m, p k = p l → k = l

variable {g}

theorem carryCost_bounds (x y : Nat) : 5 ≤ g.carryCost x y ∧ g.carryCost x y ≤ 6 := by
  rw [carryCost]
  split <;> omega

theorem applyCost_le (x y : Nat) : g.applyCost x y ≤ 4 := by
  rw [applyCost]
  split <;> omega

/-! ### Paths by their first and last edge -/

/-- A sequence of qubits with one more at the front. -/
def prepended (v : Nat) (p : Nat → Nat) : Nat → Nat
  | 0 => v
  | k + 1 => p k

/-- A sequence of qubits that goes on with `w` after place `m`. -/
def appended (p : Nat → Nat) (m w k : Nat) : Nat := if k ≤ m then p k else w

namespace IsSimplePath

variable {v w i m : Nat} {p : Nat → Nat}

theorem prepended (h : g.IsSimplePath i w m p) (edge : g.undirected.Adj v i)
    (fresh : ∀ k ≤ m, p k ≠ v) : g.IsSimplePath v w (m + 1) (prepended v p) where
  first := rfl
  last := h.last
  joined := by
    intro k hk
    cases k with
    | zero => simpa [CouplingGraph.prepended, h.first] using edge
    | succ k => exact h.joined k (by omega)
  simple := by
    intro k hk l hl heq
    cases k with
    | zero =>
      cases l with
      | zero => rfl
      | succ l => exact absurd heq.symm (fresh l (by omega))
    | succ k =>
      cases l with
      | zero => exact absurd heq (fresh k (by omega))
      | succ l => exact congrArg (· + 1) (h.simple k (by omega) l (by omega) heq)

theorem appended (h : g.IsSimplePath v i m p) (edge : g.undirected.Adj i w)
    (fresh : ∀ k ≤ m, p k ≠ w) : g.IsSimplePath v w (m + 1) (appended p m w) where
  first := by simp [CouplingGraph.appended, h.first]
  last := by simp [CouplingGraph.appended]
  joined := by
    intro k hk
    by_cases hkm : k = m
    · subst hkm
      simpa [CouplingGraph.appended, h.last] using edge
    · have before : k ≤ m ∧ k + 1 ≤ m := by omega
      simpa [CouplingGraph.appended, before] using h.joined k (by omega)
  simple := by
    intro k hk l hl heq
    simp only [CouplingGraph.appended] at heq
    split at heq
    · rename_i hkm
      split at heq
      · rename_i hlm
        exact h.simple k hkm l hlm heq
      · exact absurd heq (fresh k hkm)
    · split at heq
      · rename_i hlm
        exact absurd heq.symm (fresh l hlm)
      · omega

theorem tail (h : g.IsSimplePath v w (m + 1) p) : g.IsSimplePath (p 1) w m fun k => p (k + 1) where
  first := rfl
  last := h.last
  joined := fun k hk => h.joined (k + 1) (by omega)
  simple := by
    intro k hk l hl heq
    have := h.simple (k + 1) (by omega) (l + 1) (by omega) heq
    omega

theorem init (h : g.IsSimplePath v w (m + 1) p) : g.IsSimplePath v (p m) m p where
  first := h.first
  last := rfl
  joined := fun k hk => h.joined k (by omega)
  simple := fun k hk l hl heq => h.simple k (by omega) l (by omega) heq

theorem of_adj (edge : g.undirected.Adj v w) :
    g.IsSimplePath v w 1 (CouplingGraph.prepended v fun _ => w) := by
  have last : g.IsSimplePath w w 0 fun _ => w := ⟨rfl, rfl, by simp, by simp⟩
  exact last.prepended edge fun _ _ => edge.ne.symm

theorem adj_of_one (h : g.IsSimplePath v w 1 p) : g.undirected.Adj v w := by
  have edge := h.joined 0 (by omega)
  rwa [h.first, h.last] at edge

end IsSimplePath

theorem pathCost_succ_first (m : Nat) (p : Nat → Nat) (j : Nat) :
    g.pathCost (m + 1) p (j + 1) =
      2 * g.carryCost (p 0) (p 1) + g.pathCost m (fun k => p (k + 1)) j := by
  rw [pathCost, Finset.sum_range_succ', Nat.add_comm]
  simp [pathCost]

theorem pathCost_succ_last {m j : Nat} (hj : j ≠ m) (p : Nat → Nat) :
    g.pathCost (m + 1) p j = g.pathCost m p j + 2 * g.carryCost (p m) (p (m + 1)) := by
  rw [pathCost, Finset.sum_range_succ, if_neg hj.symm, ← pathCost]

theorem pathCost_one (p : Nat → Nat) : g.pathCost 1 p 0 = g.applyCost (p 0) (p 1) := by
  simp [pathCost]

theorem pathCost_prepended (v m : Nat) (p : Nat → Nat) (j : Nat) :
    g.pathCost (m + 1) (prepended v p) (j + 1) =
      2 * g.carryCost v (p 0) + g.pathCost m p j :=
  pathCost_succ_first m (prepended v p) j

theorem pathCost_appended {m j : Nat} (hj : j < m) (p : Nat → Nat) (w : Nat) :
    g.pathCost (m + 1) (appended p m w) j = g.pathCost m p j + 2 * g.carryCost (p m) w := by
  have before : g.pathCost m (appended p m w) j = g.pathCost m p j := by
    apply Finset.sum_congr rfl
    intro k hk
    have inside : k ≤ m ∧ k + 1 ≤ m := by
      have := Finset.mem_range.1 hk
      omega
    simp only [appended, inside, if_true]
  rw [pathCost_succ_last (by omega), before]
  simp [appended]

/-- A path of several edges has an edge to carry an end over. -/
theorem ten_le_pathCost {m : Nat} (hm : 2 ≤ m) (p : Nat → Nat) (j : Nat) :
    10 ≤ g.pathCost m p j := by
  obtain ⟨k, hk, hkj⟩ : ∃ k < m, k ≠ j := by
    by_cases hj : j = 0
    · exact ⟨1, by omega, by omega⟩
    · exact ⟨0, by omega, by omega⟩
  have carried := (g.carryCost_bounds (p k) (p (k + 1))).1
  have one : 2 * g.carryCost (p k) (p (k + 1)) ≤ g.pathCost m p j := by
    have term := Finset.single_le_sum (f := fun k => if k = j then g.applyCost (p k) (p (k + 1))
      else 2 * g.carryCost (p k) (p (k + 1))) (fun _ _ => Nat.zero_le _) (Finset.mem_range.2 hk)
    simpa [hkj, pathCost] using term
  omega

/-! ### Moves -/

/-- A move carries the control or the target over an edge, at the cost of that edge or more. -/
theorem carryCost_le_of_mem_movesTo {v w i v' w' : Nat} {s : Step}
    (h : (s, v', w') ∈ g.movesTo v w i) :
    (v' = i ∧ w' = w ∧ (g.hasEdge v i = true ∨ g.hasEdge i v = true) ∧
        g.carryCost v i ≤ s.cost) ∨
      v' = v ∧ w' = i ∧ (g.hasEdge i w = true ∨ g.hasEdge w i = true) ∧
        g.carryCost i w ≤ s.cost := by
  rcases mem_movesTo.1 h with ⟨edge, rfl, rfl, rfl⟩ | ⟨edge, rfl, rfl, rfl⟩ |
    ⟨edge, rfl, rfl, rfl⟩ | ⟨edge, rfl, rfl, rfl⟩
  · exact .inl ⟨rfl, rfl, .inl edge, (g.carryCost_bounds _ _).2⟩
  · exact .inl ⟨rfl, rfl, .inr edge, by simp [carryCost, edge, Step.cost, StepKind.cost,
      StepKind.moveCost]⟩
  · exact .inr ⟨rfl, rfl, .inr edge, by simp [carryCost, edge, Step.cost, StepKind.cost,
      StepKind.moveCost]⟩
  · exact .inr ⟨rfl, rfl, .inl edge, (g.carryCost_bounds _ _).2⟩

theorem exists_control_move {v i : Nat} (edge : g.undirected.Adj v i) (w : Nat) :
    ∃ s, (s, i, w) ∈ g.movesTo v w i ∧ s.cost = g.carryCost v i := by
  by_cases back : g.hasEdge i v = true
  · exact ⟨_, mem_movesTo.2 (.inr (.inl ⟨back, rfl, rfl, rfl⟩)), by
      simp [carryCost, back, Step.cost, StepKind.cost, StepKind.moveCost]⟩
  · have forth := (hasEdge_of_adj edge).resolve_right back
    exact ⟨_, mem_movesTo.2 (.inl ⟨forth, rfl, rfl, rfl⟩), by
      simp [carryCost, back, Step.cost, StepKind.cost, StepKind.moveCost]⟩

theorem exists_target_move {i w : Nat} (edge : g.undirected.Adj i w) (v : Nat) :
    ∃ s, (s, v, i) ∈ g.movesTo v w i ∧ s.cost = g.carryCost i w := by
  by_cases back : g.hasEdge w i = true
  · exact ⟨_, mem_movesTo.2 (.inr (.inr (.inl ⟨back, rfl, rfl, rfl⟩))), by
      simp [carryCost, back, Step.cost, StepKind.cost, StepKind.moveCost]⟩
  · have forth := (hasEdge_of_adj edge).resolve_right back
    exact ⟨_, mem_movesTo.2 (.inr (.inr (.inr ⟨forth, rfl, rfl, rfl⟩))), by
      simp [carryCost, back, Step.cost, StepKind.cost, StepKind.moveCost]⟩

end CouplingGraph

theorem Route.completedCost_cons {r : Route} (hr : r ≠ []) (s : Step) :
    completedCost (s :: r) = 2 * s.cost + completedCost r := by
  obtain ⟨moves, t, rfl⟩ := List.eq_nil_or_concat r |>.resolve_left hr
  have whole := completedCost_concat (s :: moves) t
  rw [List.concat_eq_append, completedCost_concat]
  rw [List.cons_append, cost_cons] at whole
  omega

/-! ### Forward parts along paths -/

namespace CouplingGraph

variable {g : CouplingGraph}

/-- Every forward part costs at least as much as some path over the free qubits. -/
theorem exists_pathCost_le {free : List Nat} {v w : Nat} {r : Route} (h : IsForwardPart g free v w r)
    (hf : free.Nodup) (hv : v ∉ free) (hw : w ∉ free) (hvw : v ≠ w) :
    ∃ m p j, g.IsSimplePath v w m p ∧ j < m ∧ (∀ k ≤ m, p k = v ∨ p k = w ∨ p k ∈ free) ∧
      g.pathCost m p j ≤ r.completedCost := by
  induction h with
  | @stop free v w s hs =>
    have joined : g.hasEdge v w = true ∨ g.hasEdge w v = true := by
      rcases mem_terminalSteps.1 hs with ⟨edge, -⟩ | ⟨edge, -⟩
      · exact .inl edge
      · exact .inr edge
    refine ⟨1, _, 0, .of_adj ((SimpleGraph.fromRel_adj _ v w).2 ⟨hvw, joined⟩), Nat.one_pos, ?_, ?_⟩
    · intro k _
      cases k with
      | zero => exact .inl rfl
      | succ k => exact .inr (.inl rfl)
    · rw [pathCost_one]
      rcases mem_terminalSteps.1 hs with ⟨edge, rfl⟩ | ⟨-, rfl⟩
      · simp [applyCost, prepended, edge]
      · exact applyCost_le v w
  | @move free v w i s v' w' r hi hm tail ih =>
    have hvi : v ≠ i := fun h => hv (h ▸ hi)
    have hwi : w ≠ i := fun h => hw (h ▸ hi)
    have hvf : v ∉ free.erase i := fun h => hv (List.mem_of_mem_erase h)
    have hwf : w ∉ free.erase i := fun h => hw (List.mem_of_mem_erase h)
    rw [Route.completedCost_cons tail.ne_nil]
    rcases carryCost_le_of_mem_movesTo hm with ⟨rfl, rfl, edge, cost⟩ | ⟨rfl, rfl, edge, cost⟩
    · obtain ⟨m, p, j, path, hj, inside, le⟩ := ih (hf.erase _) hf.not_mem_erase hwf hwi.symm
      have fresh : ∀ k ≤ m, p k ≠ v := by
        rintro k hk rfl
        rcases inside k hk with h | h | h
        · exact hvi h
        · exact hvw h
        · exact hvf h
      refine ⟨m + 1, _, j + 1,
        path.prepended ((SimpleGraph.fromRel_adj _ _ _).2 ⟨hvi, edge⟩) fresh, by omega, ?_, ?_⟩
      · intro k hk
        cases k with
        | zero => exact .inl rfl
        | succ k =>
          rcases inside k (by omega) with h | h | h
          · exact .inr (.inr (by rwa [prepended, h]))
          · exact .inr (.inl h)
          · exact .inr (.inr (List.mem_of_mem_erase h))
      · rw [pathCost_prepended, path.first]
        omega
    · obtain ⟨m, p, j, path, hj, inside, le⟩ := ih (hf.erase _) hvf hf.not_mem_erase hvi
      have fresh : ∀ k ≤ m, p k ≠ w := by
        rintro k hk rfl
        rcases inside k hk with h | h | h
        · exact hvw h.symm
        · exact hwi h
        · exact hwf h
      refine ⟨m + 1, _, j,
        path.appended ((SimpleGraph.fromRel_adj _ _ _).2 ⟨hwi.symm, edge⟩) fresh, by omega, ?_, ?_⟩
      · intro k _
        rw [appended]
        split
        · rename_i hk
          rcases inside k hk with h | h | h
          · exact .inl h
          · exact .inr (.inr (by rwa [h]))
          · exact .inr (.inr (List.mem_of_mem_erase h))
        · exact .inr (.inl rfl)
      · rw [pathCost_appended hj, path.last]
        omega

/-- Where an edge joins the ends of a path, the CNOT on that edge costs no more than on the path. -/
theorem exists_terminalStep_le {v w m j : Nat} {p : Nat → Nat} (path : g.IsSimplePath v w m p)
    (hj : j < m) (stops : g.terminalSteps v w ≠ []) :
    ∃ s ∈ g.terminalSteps v w, s.cost ≤ g.pathCost m p j := by
  by_cases edge : g.hasEdge v w = true
  · exact ⟨_, mem_terminalSteps.2 (.inl ⟨edge, rfl⟩), Nat.zero_le _⟩
  · obtain ⟨s, hs⟩ := List.exists_mem_of_ne_nil _ stops
    obtain ⟨back, rfl⟩ := (mem_terminalSteps.1 hs).resolve_left fun h => edge h.1
    refine ⟨_, hs, ?_⟩
    by_cases several : 2 ≤ m
    · have := g.ten_le_pathCost several p j
      simp only [Step.cost, StepKind.cost]
      omega
    · obtain ⟨rfl, rfl⟩ : m = 1 ∧ j = 0 := by omega
      rw [pathCost_one, path.first, path.last]
      simp [applyCost, edge, Step.cost, StepKind.cost]

/-- For every path over free qubits and every edge of it, the search finds a forward part that costs
no more. The control is carried first; where an edge joins the ends, the search stops. -/
theorem exists_le_pathCost {free : List Nat} {v w m j : Nat} {p : Nat → Nat}
    (path : g.IsSimplePath v w m p) (hj : j < m) (inside : ∀ k, 0 < k → k < m → p k ∈ free) :
    ∃ r ∈ g.forwardPartsFrom .stopAtEdge free v w, r.completedCost ≤ g.pathCost m p j := by
  induction m generalizing free v w j p with
  | zero => omega
  | succ m ih =>
    by_cases stops : g.terminalSteps v w = []
    · have several : m ≠ 0 := by
        rintro rfl
        rcases hasEdge_of_adj path.adj_of_one with edge | edge <;>
          simp [terminalSteps, edge] at stops
      -- the control is carried while edges before the chosen one are left, then the target
      cases j with
      | succ j =>
        have hi : p 1 ∈ free := inside 1 (by omega) (by omega)
        have edge : g.undirected.Adj v (p 1) := path.first ▸ path.joined 0 (by omega)
        obtain ⟨s, hs, cost⟩ := exists_control_move edge w
        have rest : ∀ k, 0 < k → k < m → p (k + 1) ∈ free.erase (p 1) := by
          intro k hk hkm
          have new : p (k + 1) ≠ p 1 := by
            intro heq
            have := path.simple (k + 1) (by omega) 1 (by omega) heq
            omega
          exact (List.mem_erase_of_ne new).2 (inside (k + 1) (by omega) (by omega))
        obtain ⟨r, hr, le⟩ := ih path.tail (by omega : j < m) rest
        refine ⟨s :: r, cons_mem_forwardPartsFrom (fun _ => stops) hi hs hr, ?_⟩
        rw [Route.completedCost_cons (isForwardPart_of_mem hr).ne_nil, pathCost_succ_first,
          path.first]
        omega
      | zero =>
        have hi : p m ∈ free := inside m (by omega) (by omega)
        have edge : g.undirected.Adj (p m) w := path.last ▸ path.joined m (by omega)
        obtain ⟨s, hs, cost⟩ := exists_target_move edge v
        have rest : ∀ k, 0 < k → k < m → p k ∈ free.erase (p m) := by
          intro k hk hkm
          have new : p k ≠ p m := by
            intro heq
            have := path.simple k (by omega) m (by omega) heq
            omega
          exact (List.mem_erase_of_ne new).2 (inside k hk (by omega))
        obtain ⟨r, hr, le⟩ := ih path.init (by omega : 0 < m) rest
        refine ⟨s :: r, cons_mem_forwardPartsFrom (fun _ => stops) hi hs hr, ?_⟩
        rw [Route.completedCost_cons (isForwardPart_of_mem hr).ne_nil,
          pathCost_succ_last (by omega), path.last]
        omega
    · obtain ⟨s, hs, le⟩ := exists_terminalStep_le path hj stops
      refine ⟨[s], singleton_mem_forwardPartsFrom hs, ?_⟩
      simpa [Route.completedCost, Nat.two_mul] using le

end CouplingGraph

end CnotRouting
