import CnotRouting.Proofs.OptimalRoutes

/-!
# Bounded costs

A move of the search takes a qubit that is still free, costs at most 6 and is taken back at the same
cost, and the terminal step costs at most 4. So the routes of a graph are never costlier than 12 for
each of its qubits and 4. Costs below the bound of machine words can be added up in such words.
-/

namespace CnotRouting

theorem StepKind.cost_le (k : StepKind) : k.cost ≤ 6 := by
  rcases k with ⟨_ | _, _ | _⟩ | ⟨_ | _, _ | _⟩ | _ | _ | _ <;> decide

theorem IsForwardPart.completedCost_le {g : CouplingGraph} {free : List Nat} {v w : Nat} {r : Route}
    (h : IsForwardPart g free v w r) : r.completedCost ≤ 12 * free.length + 4 := by
  induction h with
  | stop hs =>
    rcases CouplingGraph.mem_terminalSteps.1 hs with ⟨-, rfl⟩ | ⟨-, rfl⟩
    · exact Nat.zero_le _
    · exact Nat.le_add_left 4 _
  | @move free v w i s v' w' r hi hm tail ih =>
    have taken := List.length_erase_add_one hi
    have step : s.cost ≤ 6 := s.kind.cost_le
    rw [Route.completedCost_cons tail.ne_nil]
    omega

theorem IsForwardPart.completedCost_joined_le {g : CouplingGraph} {free : List Nat} {v w : Nat}
    {r : Route} (h : IsForwardPart g free v w r) :
    r.joined.completedCost ≤ 12 * free.length + 4 := by
  rcases h.joined_eq with same | ⟨i, -, -, cascade⟩
  · rw [same]
    exact h.completedCost_le
  · have three : Route.completedCost [.cascade v i w] = 3 := rfl
    rw [cascade, three]
    omega

/-- What the search keeps for a pair is bounded by the size of the graph. -/
theorem CouplingGraph.cost_le_of_cheapestRoute {g : CouplingGraph} {v w : Nat} {r : Route}
    (h : g.cheapestRoute v w = .ok r) : r.cost ≤ 12 * g.size + 4 := by
  by_cases hvw : v = w
  · have entry := Device.isEntry_of_cheapestRoute h
    obtain rfl : r = [] := by simpa [IsEntry, hvw] using entry
    exact Nat.zero_le _
  · obtain ⟨⟨part, hpart, cost⟩, -⟩ := isLeast_cheapestRoute hvw h
    have fewer : (g.othersThan v w).length ≤ g.size :=
      (List.length_filter_le _ _).trans_eq List.length_range
    have bound := (isForwardPart_of_mem hpart).completedCost_joined_le
    omega

/-! ### Lengths -/

theorem IsForwardPart.length_le {g : CouplingGraph} {free : List Nat} {v w : Nat} {r : Route}
    (h : IsForwardPart g free v w r) : r.length ≤ free.length + 1 := by
  induction h with
  | stop hs => exact Nat.le_add_left 1 _
  | @move free v w i s v' w' r hi hm tail ih =>
    have taken := List.length_erase_add_one hi
    rw [List.length_cons]
    omega

theorem IsForwardPart.length_joined_le {g : CouplingGraph} {free : List Nat} {v w : Nat} {r : Route}
    (h : IsForwardPart g free v w r) : r.joined.length ≤ free.length + 1 := by
  rcases h.joined_eq with same | ⟨i, -, -, cascade⟩
  · rw [same]
    exact h.length_le
  · rw [cascade]
    exact Nat.le_add_left 1 _

theorem Route.length_completed (r : Route) : r.completed.length = 2 * r.length - 1 := by
  simp [completed]
  omega

/-- Two qubits of a graph leave at most all others free. -/
theorem CouplingGraph.length_othersThan_add_two_le {g : CouplingGraph} {v w : Nat} (hv : v < g.size)
    (hw : w < g.size) (hvw : v ≠ w) : (g.othersThan v w).length + 2 ≤ g.size := by
  have all : (v :: w :: g.othersThan v w).Nodup := by
    simp [hvw, mem_othersThan, g.nodup_othersThan v w]
  have inside : v :: w :: g.othersThan v w ⊆ List.range g.size := by
    simp only [List.cons_subset, List.mem_range]
    exact ⟨hv, hw, fun q hq => List.mem_range.2 (mem_othersThan.1 hq).1⟩
  have count := (List.subperm_of_subset all inside).length_le
  rwa [List.length_range] at count

/-! ### Costs in machine words -/

/-- A number, if a machine word can hold it. -/
def word? (n : Nat) : Option Nat := if n < wordBound then some n else none

theorem word?_of_lt {n : Nat} (h : n < wordBound) : word? n = some n := if_pos h

namespace Route

/-- The sum of the step costs, added up in words from the first step on. There is none if a sum on
the way does not fit. -/
def wordCost? (r : Route) : Option Nat := r.foldlM (fun sum s => word? (sum + s.cost)) 0

/-- The cost of a forward part once it is completed, computed in words. There is none if the sum of
the step costs or its double does not fit, or if the double is less than what is taken off it. -/
def wordCompletedCost? (r : Route) : Option Nat := do
  let double ← word? (2 * (← r.wordCost?))
  let last := (r.getLast?.map Step.cost).getD 0
  if last ≤ double then some (double - last) else none

theorem foldlM_word? {r : Route} {sum : Nat} (h : sum + cost r < wordBound) :
    r.foldlM (fun sum s => word? (sum + s.cost)) sum = some (sum + cost r) := by
  induction r generalizing sum with
  | nil => rfl
  | cons s r ih =>
    rw [cost_cons, ← Nat.add_assoc] at h ⊢
    have here : sum + s.cost < wordBound := by omega
    rw [List.foldlM_cons, word?_of_lt here]
    exact ih h

theorem wordCost?_eq {r : Route} (h : cost r < wordBound) : r.wordCost? = some r.cost := by
  have started : 0 + cost r < wordBound := by rwa [Nat.zero_add]
  rw [wordCost?, foldlM_word? started, Nat.zero_add]

theorem cost_last_le (r : Route) :
    (r.getLast?.map Step.cost).getD 0 ≤ cost r ∧ (r.getLast?.map Step.cost).getD 0 ≤ 6 := by
  rcases List.eq_nil_or_concat r with rfl | ⟨moves, t, rfl⟩
  · simp
  · have last : t.cost ≤ 6 := t.kind.cost_le
    simpa using last

/-- The double of the step costs is what the completed route costs, and the last step once more. -/
theorem two_mul_cost_le (r : Route) : 2 * cost r ≤ completedCost r + 6 := by
  have := r.cost_last_le
  rw [completedCost]
  omega

theorem wordCompletedCost?_eq {r : Route} (h : 2 * cost r < wordBound) :
    r.wordCompletedCost? = some r.completedCost := by
  have single : cost r < wordBound := by omega
  have last := r.cost_last_le.1
  rw [wordCompletedCost?, wordCost?_eq single]
  simp only [Option.bind_eq_bind, Option.bind_some, word?_of_lt h]
  rw [if_pos (by omega), completedCost]

end Route

end CnotRouting
