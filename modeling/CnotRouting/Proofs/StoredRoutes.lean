import CnotRouting.Proofs.FirstLeast
import CnotRouting.Proofs.OptimalRoutes
import CnotRouting.Proofs.VisitedForwardParts

/-!
# Stored routes

The route that is stored for a pair of qubits is made of moves, one terminal step and the moves
taken back. It runs on edges of the graph and realises the CNOT of the pair. Its forward part is the
first of the cheapest that the search visits.
-/

namespace CnotRouting

section

variable {g : CouplingGraph} {mode : SearchMode} {v w : Nat}

/-- A forward part consists of moves and a last step that applies the CNOT, also when it has been
joined to a cascade, which has no moves. -/
theorem CouplingGraph.exists_moves_of_joined {part : Route} (h : part ∈ g.forwardParts mode v w) :
    ∃ moves last, part.joined = moves ++ [last] ∧
      (∀ s ∈ moves, ∃ endpoint heading, s.kind = .move endpoint heading) ∧
      last.kind.isTerminal = true ∧ (last.kind = .cascade → moves = []) := by
  rcases (isForwardPart_of_mem h).joined_eq with same | ⟨i, -, -, cascade⟩
  · obtain ⟨moves, last, rfl⟩ :=
      (List.eq_nil_or_concat' part).resolve_left (ne_nil_of_mem_forwardPartsFrom h)
    have candidate := mem_forwardParts_iff.1 h
    refine ⟨moves, last, same, ?_, ?_, ?_⟩
    · intro s hs
      obtain ⟨k, hk⟩ := List.mem_iff_getElem?.1 hs
      exact (candidate.walks k s hk).exists_kind
    · cases candidate.stops <;> rfl
    · intro joined
      cases candidate.stops <;> cases joined
  · exact ⟨[], _, cascade, by simp, rfl, fun _ => rfl⟩

end

/-- The route for a pair of distinct qubits consists of moves, one terminal step and the moves taken
back in reverse order, and of a single step if that is a cascade. It realises the CNOT, leaves its
ends in place, uses edges of the graph only and costs what its forward part costs completed. The
forward part is the joined form of the first one visited whose joined form is cheapest. -/
theorem cheapestRoute_is_first_cheapest {g : CouplingGraph} {v w : Nat} {r : Route} (hvw : v ≠ w)
    (h : g.cheapestRoute v w = .ok r) :
    ∃ moves last, r = moves ++ last :: moves.reverse.map Step.inverse ∧
      (∀ s ∈ moves, ∃ endpoint heading, s.kind = .move endpoint heading) ∧
      last.kind.isTerminal = true ∧ (last.kind = .cascade → moves = []) ∧
      r.realizes v w = true ∧ r.relabel (v, w) = (v, w) ∧
      (∀ s ∈ r, ∀ e ∈ s.edges, g.hasEdge e.1 e.2 = true) ∧
      r.cost = Route.completedCost (moves ++ [last]) ∧
      ∃ before part after, g.forwardParts .stopAtEdge v w = before ++ part :: after ∧
        part.joined = moves ++ [last] ∧
        (∀ q ∈ before, part.joined.completedCost < q.joined.completedCost) ∧
        ∀ q ∈ after, part.joined.completedCost ≤ q.joined.completedCost := by
  obtain ⟨best, hbest, rfl⟩ := CouplingGraph.exists_of_cheapestRoute hvw h
  have least := hbest
  rw [CouplingGraph.cheapestForwardPart?_eq] at least
  obtain ⟨before, part, after, visited, rfl, less, le⟩ := exists_split_of_firstLeast?_map least
  have hpart : part ∈ g.forwardParts .stopAtEdge v w := by simp [visited]
  obtain ⟨moves, last, parts, each_moves, terminal, single⟩ :=
    CouplingGraph.exists_moves_of_joined hpart
  obtain ⟨moves', last', parts', approaches⟩ :=
    CouplingGraph.cheapestForwardPart?_approaches hvw hbest
  obtain ⟨rfl, same⟩ := List.append_inj' (parts.symm.trans parts') rfl
  obtain rfl := List.singleton_inj.1 same
  have serves := approaches.serves
  rw [← parts] at serves
  refine ⟨moves, last, ?_, each_moves, terminal, single, serves.realizes, ?_, ?_, ?_,
    before, part, after, visited, parts, less, le⟩
  · rw [parts, Route.completed_concat]
  · rw [parts]
    exact approaches.splitsAt.relabel_eq
  · exact fun s hs => (serves.native s hs).edges
  · rw [Route.cost_completed, parts]

/-- The control is carried back over an edge, the CNOT flipped and the control brought home; the
other way round, with the target carried, costs as much and is visited later. -/
theorem cheapestRoute_is_first_cheapest_chain_three :
    (CouplingGraph.chain 3).cheapestRoute 2 0 = .ok [⟨.move .control .against, 2, 1, none⟩,
        ⟨.flip, 1, 0, none⟩, ⟨.undo .control .against, 2, 1, none⟩] ∧
      ∃ before part after, (CouplingGraph.chain 3).forwardParts .stopAtEdge 2 0 =
          before ++ part :: after ∧
        (∀ q ∈ before, part.joined.completedCost < q.joined.completedCost) ∧
        ∀ q ∈ after, part.joined.completedCost ≤ q.joined.completedCost := by
  have route : (CouplingGraph.chain 3).cheapestRoute 2 0 = .ok [⟨.move .control .against, 2, 1, none⟩,
      ⟨.flip, 1, 0, none⟩, ⟨.undo .control .against, 2, 1, none⟩] := by
    apply ok_of_toOption
    decide +kernel
  obtain ⟨moves, last, -, -, -, -, -, -, -, -, before, part, after, visited, -, less, le⟩ :=
    cheapestRoute_is_first_cheapest (by decide) route
  exact ⟨route, before, part, after, visited, less, le⟩

end CnotRouting
