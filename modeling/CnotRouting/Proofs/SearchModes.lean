import CnotRouting.Proofs.OptimalRoutes
import CnotRouting.Proofs.VisitedForwardParts

/-!
# What the search misses when it stops at an edge

The search that goes on at an edge visits all that the other one visits, and more. Whatever it finds
costs at least as much as some path, and for every path the other search finds something that costs
no more. A cascade escapes this bound, for it is cheaper than its path. The search that stops meets
the same cascade unless an edge joins the pair at once; it therefore misses a cheaper route only
where the pair is joined by an edge against the CNOT.
-/

namespace CnotRouting

/-- Joining a chain to a cascade never makes it costlier. -/
theorem Route.completedCost_joined_le (r : Route) : r.joined.completedCost ≤ r.completedCost := by
  unfold joined
  split
  · split
    · simp [completedCost, Step.cascade, Step.cost, StepKind.cost, StepKind.moveCost]
    · exact Nat.le_refl _
  · split
    · simp [completedCost, Step.cascade, Step.cost, StepKind.cost, StepKind.moveCost]
    · exact Nat.le_refl _
  · exact Nat.le_refl _

namespace CouplingGraph

variable {g : CouplingGraph} {v w : Nat}

/-- The search that goes on at an edge visits what the other one visits. -/
theorem mem_forwardParts_goOn {part : Route} (h : part ∈ g.forwardParts .stopAtEdge v w) :
    part ∈ g.forwardParts .goOn v w := by
  obtain ⟨moves, last, rfl⟩ :=
    (List.eq_nil_or_concat' part).resolve_left (ne_nil_of_mem_forwardPartsFrom h)
  have candidate := mem_forwardParts_iff.1 h
  exact mem_forwardParts_iff.2 { candidate with apart := by simp }

/-- Unless the pair is joined by an edge against the CNOT only, the search that stops finds something
as cheap as whatever the other one finds. -/
theorem exists_mem_stopAtEdge_le (hvw : v ≠ w)
    (ordinary : ¬ (g.hasEdge w v = true ∧ g.hasEdge v w = false)) {part : Route}
    (h : part ∈ g.forwardParts .goOn v w) :
    ∃ part' ∈ g.forwardParts .stopAtEdge v w,
      part'.joined.completedCost ≤ part.joined.completedCost := by
  rcases (isForwardPart_of_mem h).joined_eq with same | ⟨i, hvi, hiw, cascade⟩
  · obtain ⟨m, p, j, path, hj, below⟩ := exists_pathCost_le_of_mem hvw h
    obtain ⟨part', hpart', above⟩ := exists_mem_le_pathCost path hj
    refine ⟨part', hpart', ?_⟩
    rw [same]
    exact (part'.completedCost_joined_le.trans above).trans below
  · by_cases forth : g.hasEdge v w = true
    · exact ⟨_, native_mem_forwardParts .stopAtEdge forth, Nat.zero_le _⟩
    · have none : g.hasEdge v w = false := by simpa using forth
      have back : g.hasEdge w v = false := by
        by_contra joined
        exact ordinary ⟨by simpa using joined, none⟩
      obtain ⟨part', hpart', cascade'⟩ := exists_cascade none (fun _ => back) hvi hiw
      exact ⟨part', hpart', by rw [cascade, cascade']⟩

/-- Where no edge runs along the CNOT, a flip is the least that can be done on a path. -/
theorem four_le_completedCost {mode : SearchMode} (hvw : v ≠ w) (forth : g.hasEdge v w = false)
    {part : Route} (h : part ∈ g.forwardParts mode v w) : 4 ≤ part.completedCost := by
  obtain ⟨m, p, j, path, hj, below⟩ := exists_pathCost_le_of_mem hvw h
  refine Nat.le_trans ?_ below
  by_cases several : 2 ≤ m
  · have := g.ten_le_pathCost several p j
    omega
  · obtain ⟨rfl, rfl⟩ : m = 1 ∧ j = 0 := by omega
    rw [pathCost_one, path.first, path.last]
    simp [applyCost, forth]

/-- The search that goes on past an edge against the CNOT finds a chain if there is one. -/
theorem completedCost_goOn_of_flip (hvw : v ≠ w) (forth : g.hasEdge v w = false)
    (back : g.hasEdge w v = true) {full : Route}
    (h : g.cheapestForwardPart? .goOn v w = some full) :
    ((∃ i, g.hasEdge v i = true ∧ g.hasEdge i w = true) → full.completedCost = 3) ∧
      ((¬ ∃ i, g.hasEdge v i = true ∧ g.hasEdge i w = true) → full.completedCost = 4) := by
  obtain ⟨⟨best, hbest, cost⟩, least⟩ := isLeast_cheapestForwardPart h
  have at_most : ∀ part ∈ g.forwardParts .goOn v w,
      full.completedCost ≤ part.joined.completedCost := fun part hpart => least ⟨part, hpart, rfl⟩
  have three : ∀ i, Route.completedCost [.cascade v i w] = 3 := fun _ => rfl
  have four : Route.completedCost [⟨.flip, v, w, none⟩] = 4 := rfl
  have path_cost := four_le_completedCost hvw forth hbest
  constructor
  · rintro ⟨i, hvi, hiw⟩
    obtain ⟨part, hpart, cascade⟩ :
        ∃ part ∈ g.forwardParts .goOn v w, part.joined = [.cascade v i w] :=
      exists_cascade forth (by simp) hvi hiw
    have upper := at_most part hpart
    rw [cascade, three] at upper
    rcases (isForwardPart_of_mem hbest).joined_eq with same | ⟨i', -, -, cascade'⟩
    · rw [cost, same] at upper
      omega
    · rw [cost, cascade', three]
  · intro unchained
    have flip : [⟨.flip, v, w, none⟩] ∈ g.forwardParts .stopAtEdge v w := by
      simp [forwardParts_eq_flip forth back]
    have upper := at_most _ (mem_forwardParts_goOn flip)
    rcases (isForwardPart_of_mem hbest).joined_eq with same | ⟨i, hvi, hiw, -⟩
    · have flipped : Route.joined [⟨.flip, v, w, none⟩] = [⟨.flip, v, w, none⟩] := rfl
      rw [flipped, four] at upper
      rw [same] at cost
      omega
    · exact absurd ⟨i, hvi, hiw⟩ unchained

end CouplingGraph

/-- Between two connected qubits both searches find a route. Stopping at an edge costs nothing, save
where the pair is joined by an edge against the CNOT only: there the CNOT is flipped at a cost of 4,
although a chain of two edges, if there is one, would cost 3. -/
theorem stopping_misses_chain_only {g : CouplingGraph} {v w : Nat} (hvw : v ≠ w)
    (connected : g.undirected.Reachable v w) (hw : w < g.size) :
    ∃ early full, g.cheapestForwardPart? .stopAtEdge v w = some early ∧
      g.cheapestForwardPart? .goOn v w = some full ∧
      (¬ (g.hasEdge w v = true ∧ g.hasEdge v w = false) →
        early.completedCost = full.completedCost) ∧
      (g.hasEdge w v = true ∧ g.hasEdge v w = false →
        early.completedCost = 4 ∧
        ((∃ i, g.hasEdge v i = true ∧ g.hasEdge i w = true) → full.completedCost = 3) ∧
        ((¬ ∃ i, g.hasEdge v i = true ∧ g.hasEdge i w = true) → full.completedCost = 4)) := by
  obtain ⟨early, hearly⟩ := CouplingGraph.exists_cheapestForwardPart connected hw hvw .stopAtEdge
  obtain ⟨full, hfull⟩ := CouplingGraph.exists_cheapestForwardPart connected hw hvw .goOn
  obtain ⟨⟨stopped, hstopped, early_cost⟩, early_least⟩ :=
    CouplingGraph.isLeast_cheapestForwardPart hearly
  obtain ⟨⟨gone_on, hgone_on, full_cost⟩, full_least⟩ :=
    CouplingGraph.isLeast_cheapestForwardPart hfull
  refine ⟨early, full, hearly, hfull, ?_, ?_⟩
  · intro ordinary
    apply Nat.le_antisymm
    · obtain ⟨part, hpart, le⟩ := CouplingGraph.exists_mem_stopAtEdge_le hvw ordinary hgone_on
      rw [full_cost]
      exact (early_least ⟨part, hpart, rfl⟩).trans le
    · exact full_least ⟨stopped, CouplingGraph.mem_forwardParts_goOn hstopped, early_cost⟩
  · rintro ⟨back, forth⟩
    refine ⟨?_, CouplingGraph.completedCost_goOn_of_flip hvw forth back hfull⟩
    obtain rfl : stopped = [⟨.flip, v, w, none⟩] := by
      simpa [CouplingGraph.forwardParts_eq_flip forth back] using hstopped
    exact early_cost

/-- On a directed triangle the CNOT against an edge could run along the two others. -/
theorem stopping_misses_chain_only_triangle :
    ∃ early full,
      (CouplingGraph.ofPairs 3 [(0, 1), (1, 2), (2, 0)]).cheapestForwardPart? .stopAtEdge 0 2 =
        some early ∧
      (CouplingGraph.ofPairs 3 [(0, 1), (1, 2), (2, 0)]).cheapestForwardPart? .goOn 0 2 =
        some full ∧
      early.completedCost = 4 ∧ full.completedCost = 3 := by
  have joined : (CouplingGraph.ofPairs 3 [(0, 1), (1, 2), (2, 0)]).undirected.Adj 0 2 :=
    (SimpleGraph.fromRel_adj _ _ _).2 ⟨by decide, .inr (by decide)⟩
  obtain ⟨early, full, hearly, hfull, -, flipped⟩ :=
    stopping_misses_chain_only (by decide : 0 ≠ 2) joined.reachable (by decide)
  obtain ⟨four, chained, -⟩ := flipped (by decide)
  exact ⟨early, full, hearly, hfull, four, chained ⟨1, by decide⟩⟩

end CnotRouting
