import CnotRouting.Proofs.RouteActions
import CnotRouting.RouteTables

/-!
# Forward parts found by the search

The search walks the ends of a CNOT over edges to qubits that are still free, until an edge joins
them. A free qubit holds no end, so the way is clear at every move, and the moves taken back in
reverse order bring the ends home. The completed route therefore serves the pair, and acts as its
CNOT.
-/

namespace CnotRouting

universe u

/-- A terminal step on an edge between the ends, or a move of an end over an edge to a free qubit
and a forward part from there. -/
inductive IsForwardPart (g : CouplingGraph) : (free : List Nat) → (v w : Nat) → Route → Prop where
  | stop {free v w s} (hs : s ∈ g.terminalSteps v w) : IsForwardPart g free v w [s]
  | move {free v w i s v' w' r} (hi : i ∈ free) (hm : (s, v', w') ∈ g.movesTo v w i)
      (tail : IsForwardPart g (free.erase i) v' w' r) : IsForwardPart g free v w (s :: r)

namespace CouplingGraph

variable {g : CouplingGraph}

theorem mem_othersThan {v w i : Nat} : i ∈ g.othersThan v w ↔ i < g.size ∧ i ≠ v ∧ i ≠ w := by
  simp [othersThan]

theorem nodup_othersThan (g : CouplingGraph) (v w : Nat) : (g.othersThan v w).Nodup :=
  List.nodup_range.filter _

theorem mem_terminalSteps {v w : Nat} {s : Step} : s ∈ g.terminalSteps v w ↔
    (g.hasEdge v w = true ∧ s = ⟨.native, v, w, none⟩) ∨
      (g.hasEdge w v = true ∧ s = ⟨.flip, v, w, none⟩) := by
  rw [terminalSteps]
  split <;> split <;> simp_all

theorem mem_movesTo {v w i v' w' : Nat} {s : Step} : (s, v', w') ∈ g.movesTo v w i ↔
    (g.hasEdge v i = true ∧ s = ⟨.move .control .along, v, i, none⟩ ∧ v' = i ∧ w' = w) ∨
      (g.hasEdge i v = true ∧ s = ⟨.move .control .against, v, i, none⟩ ∧ v' = i ∧ w' = w) ∨
      (g.hasEdge w i = true ∧ s = ⟨.move .target .along, w, i, none⟩ ∧ v' = v ∧ w' = i) ∨
      (g.hasEdge i w = true ∧ s = ⟨.move .target .against, w, i, none⟩ ∧ v' = v ∧ w' = i) := by
  simp only [movesTo, List.mem_append, List.mem_ite_nil_right, List.mem_singleton, or_assoc,
    Prod.mk.injEq]

theorem singleton_mem_forwardPartsFrom {mode : SearchMode} {free : List Nat} {v w : Nat} {s : Step}
    (hs : s ∈ g.terminalSteps v w) : [s] ∈ g.forwardPartsFrom mode free v w := by
  rw [forwardPartsFrom_eq]
  split
  · exact List.mem_map_of_mem hs
  · exact List.mem_append_left _ (List.mem_map_of_mem hs)

/-- Unless the search stops at an edge, it goes on with every move to a free qubit. -/
theorem cons_mem_forwardPartsFrom {mode : SearchMode} {free : List Nat} {v w i v' w' : Nat}
    {s : Step} {r : Route} (goes_on : mode = .stopAtEdge → g.terminalSteps v w = []) (hi : i ∈ free)
    (hm : (s, v', w') ∈ g.movesTo v w i)
    (hr : r ∈ g.forwardPartsFrom mode (free.erase i) v' w') :
    s :: r ∈ g.forwardPartsFrom mode free v w := by
  rw [forwardPartsFrom_eq, if_neg fun stops => stops.2 (goes_on stops.1)]
  apply List.mem_append_right
  exact List.mem_flatMap.2 ⟨i, hi, List.mem_flatMap.2 ⟨_, hm, List.mem_map_of_mem hr⟩⟩

/-- The search finds forward parts only. -/
theorem isForwardPart_of_mem {mode : SearchMode} {free : List Nat} {v w : Nat} {r : Route}
    (hr : r ∈ g.forwardPartsFrom mode free v w) : IsForwardPart g free v w r := by
  induction hn : free.length using Nat.strongRecOn generalizing free v w r with
  | _ n ih =>
    have stops : r ∈ (g.terminalSteps v w).map ([·]) → IsForwardPart g free v w r := by
      intro h
      obtain ⟨s, hs, rfl⟩ := List.mem_map.1 h
      exact .stop hs
    rw [forwardPartsFrom_eq] at hr
    split at hr
    · exact stops hr
    · rcases List.mem_append.1 hr with h | h
      · exact stops h
      · obtain ⟨i, hi, h⟩ := List.mem_flatMap.1 h
        obtain ⟨m, hm, h⟩ := List.mem_flatMap.1 h
        obtain ⟨tail, ht, rfl⟩ := List.mem_map.1 h
        have shorter := List.length_erase_of_mem hi
        have positive := List.length_pos_of_mem hi
        exact .move hi hm (ih _ (by omega) ht rfl)

end CouplingGraph

/-- A terminal step where native moves on a clear way bring the ends of a CNOT. -/
structure Approaches (g : CouplingGraph) (v w : Nat) (moves : Route) (t : Step) : Prop where
  carries : moves.Carries
  clear : moves.IsClear (v, w)
  native : ∀ s ∈ moves, s.IsNative g
  terminal : t.kind.isTerminal = true
  native_terminal : t.IsNative g
  acts_at : (t.a, t.far) = moves.relabel (v, w)

theorem approaches_terminal {g : CouplingGraph} {v w : Nat} {t : Step}
    (terminal : t.kind.isTerminal = true) (native : t.IsNative g) (acts_at : (t.a, t.far) = (v, w)) :
    Approaches g v w [] t :=
  ⟨Route.carries_nil, trivial, by simp, terminal, native, acts_at⟩

theorem Approaches.cons {g : CouplingGraph} {v w : Nat} {s t : Step} {moves : Route}
    (carries : s.kind.isTerminal = false) (clear : s.IsClear (v, w)) (native : s.IsNative g)
    (h : Approaches g (s.relabel (v, w)).1 (s.relabel (v, w)).2 moves t) :
    Approaches g v w (s :: moves) t :=
  ⟨Route.carries_cons.2 ⟨carries, h.carries⟩, ⟨clear, h.clear⟩,
    List.forall_mem_cons.2 ⟨native, h.native⟩, h.terminal, h.native_terminal, h.acts_at⟩

namespace Approaches

variable {g : CouplingGraph} {v w : Nat} {moves : Route} {t : Step}

theorem splitsAt (h : Approaches g v w moves t) :
    (Route.completed (moves ++ [t])).SplitsAt (v, w) (v, w) moves t
      (moves.reverse.map Step.inverse) where
  eq := Route.completed_concat moves t
  carries_before := h.carries
  terminal := h.terminal
  carries_after := h.carries.undone
  acts_at := h.acts_at
  returns := h.clear.relabel_undone

/-- A completed route of native moves on a clear way serves its pair. -/
theorem serves (h : Approaches g v w moves t) :
    (Route.completed (moves ++ [t])).Serves g v w := by
  refine ⟨?_, Route.realizes_iff_splitsAt.2 ⟨_, _, _, h.splitsAt⟩⟩
  intro s hs
  rw [Route.completed_concat] at hs
  rcases List.mem_append.1 hs with hs | hs
  · exact h.native s hs
  · rcases List.mem_cons.1 hs with rfl | hs
    · exact h.native_terminal
    · obtain ⟨s', hs', rfl⟩ := List.mem_map.1 hs
      exact (h.native s' (List.mem_reverse.1 hs')).inverse

/-- A completed route of native moves on a clear way acts as the CNOT of its pair. -/
theorem act_lower {R : Type u} [CommRing R] (m : GateMatrices R) (h : Approaches g v w moves t)
    (valid : g.IsValid) (hp : IsPair g.size (v, w)) (ψ : StateVector R g.size) :
    actAll m (Route.completed (moves ++ [t])).lower ψ = (Gate.cnot v w).act m ψ := by
  have whole : (moves ++ moves.reverse.map Step.inverse).Carries :=
    Route.carries_append.2 ⟨h.carries, h.carries.undone⟩
  rw [Route.act_lower m valid h.serves.native h.splitsAt h.clear hp, Route.lower_of_carries whole,
    List.flatMap_append, actAll_append]
  exact Route.act_undone m valid h.carries h.native _

end Approaches

namespace IsForwardPart

variable {g : CouplingGraph} {free : List Nat} {v w : Nat} {r : Route}

theorem approaches (h : IsForwardPart g free v w r) (hf : free.Nodup) (hv : v ∉ free)
    (hw : w ∉ free) (hvw : v ≠ w) : ∃ moves t, r = moves ++ [t] ∧ Approaches g v w moves t := by
  induction h with
  | @stop free v w s hs =>
    rcases CouplingGraph.mem_terminalSteps.1 hs with ⟨edge, rfl⟩ | ⟨edge, rfl⟩
    · exact ⟨[], _, rfl, approaches_terminal rfl ⟨by simpa [Step.edges] using edge, by simp⟩ rfl⟩
    · exact ⟨[], _, rfl, approaches_terminal rfl ⟨by simpa [Step.edges] using edge, by simp⟩ rfl⟩
  | @move free v w i s v' w' r hi hm tail ih =>
    have hiv : v ≠ i := fun h => hv (h ▸ hi)
    have hiw : w ≠ i := fun h => hw (h ▸ hi)
    have hfi : i ∉ free.erase i := hf.not_mem_erase
    have hvi : v ∉ free.erase i := fun h => hv (List.mem_of_mem_erase h)
    have hwi : w ∉ free.erase i := fun h => hw (List.mem_of_mem_erase h)
    have hni := hf.erase i
    rcases CouplingGraph.mem_movesTo.1 hm with ⟨edge, rfl, rfl, rfl⟩ | ⟨edge, rfl, rfl, rfl⟩ |
      ⟨edge, rfl, rfl, rfl⟩ | ⟨edge, rfl, rfl, rfl⟩
    · obtain ⟨moves, t, rfl, happ⟩ := ih hni hfi hwi hiw.symm
      refine ⟨_ :: moves, t, rfl, .cons rfl ⟨hiv, hvw.symm, hiw⟩ ⟨?_, by simp⟩ ?_⟩
      · simpa [Step.edges] using edge
      · simpa [Step.relabel, Step.carry] using happ
    · obtain ⟨moves, t, rfl, happ⟩ := ih hni hfi hwi hiw.symm
      refine ⟨_ :: moves, t, rfl, .cons rfl ⟨hiv, hvw.symm, hiw⟩ ⟨?_, by simp⟩ ?_⟩
      · simpa [Step.edges] using edge
      · simpa [Step.relabel, Step.carry] using happ
    · obtain ⟨moves, t, rfl, happ⟩ := ih hni hvi hfi hiv
      refine ⟨_ :: moves, t, rfl, .cons rfl ⟨hiw, hvw, hiv⟩ ⟨?_, by simp⟩ ?_⟩
      · simpa [Step.edges] using edge
      · simpa [Step.relabel, Step.carry] using happ
    · obtain ⟨moves, t, rfl, happ⟩ := ih hni hvi hfi hiv
      refine ⟨_ :: moves, t, rfl, .cons rfl ⟨hiw, hvw, hiv⟩ ⟨?_, by simp⟩ ?_⟩
      · simpa [Step.edges] using edge
      · simpa [Step.relabel, Step.carry] using happ

theorem ne_nil (h : IsForwardPart g free v w r) : r ≠ [] := by
  cases h <;> simp

/-- A forward part of two steps is a move and a terminal step from where it leads. -/
theorem of_two {s t : Step} (h : IsForwardPart g free v w [s, t]) :
    ∃ i v' w', (s, v', w') ∈ g.movesTo v w i ∧ t ∈ g.terminalSteps v' w' := by
  cases h with
  | @move _ _ _ i _ v' w' _ hi hm tail =>
    cases tail with
    | stop ht => exact ⟨i, v', w', hm, ht⟩
    | move hi' hm' tail' => exact absurd rfl tail'.ne_nil

/-- A forward part is left as it is, or it is a chain of two edges that is joined to a cascade. -/
theorem joined_eq (h : IsForwardPart g free v w r) : r.joined = r ∨
    ∃ i, g.hasEdge v i = true ∧ g.hasEdge i w = true ∧ r.joined = [.cascade v i w] := by
  unfold Route.joined
  split
  · split
    · obtain ⟨i, v', w', hm, ht⟩ := h.of_two
      simp [CouplingGraph.mem_movesTo, CouplingGraph.mem_terminalSteps] at hm ht
      obtain ⟨hvi, ⟨rfl, rfl, -⟩, rfl, rfl⟩ := hm
      obtain ⟨hiw, rfl, rfl, -⟩ := ht
      exact .inr ⟨_, hvi, hiw, rfl⟩
    · exact .inl rfl
  · split
    · obtain ⟨i, v', w', hm, ht⟩ := h.of_two
      simp [CouplingGraph.mem_movesTo, CouplingGraph.mem_terminalSteps] at hm ht
      obtain ⟨hiw, ⟨rfl, rfl, -⟩, rfl, rfl⟩ := hm
      obtain ⟨hvi, rfl, rfl, -⟩ := ht
      exact .inr ⟨_, hvi, hiw, rfl⟩
    · exact .inl rfl
  · exact .inl rfl

/-- A chain of two steps is joined to a cascade that acts where the chain did. -/
theorem joined_approaches (h : IsForwardPart g free v w r) (hf : free.Nodup) (hv : v ∉ free)
    (hw : w ∉ free) (hvw : v ≠ w) :
    ∃ moves t, r.joined = moves ++ [t] ∧ Approaches g v w moves t := by
  rcases h.joined_eq with same | ⟨i, hvi, hiw, cascade⟩
  · rw [same]
    exact h.approaches hf hv hw hvw
  · rw [cascade]
    refine ⟨[], _, rfl, approaches_terminal rfl ⟨?_, by simp [Step.cascade]⟩ rfl⟩
    simp [Step.cascade, Step.edges, hvi, hiw]

end IsForwardPart

namespace CouplingGraph

variable {g : CouplingGraph} {v w : Nat} {r : Route}

theorem cheapestForwardPart?_approaches {mode : SearchMode} (hvw : v ≠ w)
    (h : g.cheapestForwardPart? mode v w = some r) :
    ∃ moves t, r = moves ++ [t] ∧ Approaches g v w moves t := by
  rw [cheapestForwardPart?_eq] at h
  obtain ⟨r', hr', rfl⟩ := List.mem_map.1 (mem_of_firstBest?_eq_some h)
  exact (isForwardPart_of_mem hr').joined_approaches (g.nodup_othersThan v w)
    (by simp [mem_othersThan]) (by simp [mem_othersThan]) hvw

/-- The route of a pair of distinct qubits is the cheapest forward part completed. -/
theorem exists_of_cheapestRoute (hvw : v ≠ w) (h : g.cheapestRoute v w = .ok r) :
    ∃ part, g.cheapestForwardPart? .stopAtEdge v w = some part ∧ r = part.completed := by
  rw [cheapestRoute, if_neg hvw] at h
  split at h
  · cases h
  · split at h
    · cases h
    · rename_i part hpart
      cases h
      exact ⟨part, hpart, rfl⟩

/-- The cheapest route of a pair is a completed forward part. -/
theorem cheapestRoute_approaches (hvw : v ≠ w) (h : g.cheapestRoute v w = .ok r) :
    ∃ moves t, r = Route.completed (moves ++ [t]) ∧ Approaches g v w moves t := by
  obtain ⟨part, hpart, rfl⟩ := exists_of_cheapestRoute hvw h
  obtain ⟨moves, t, rfl, happ⟩ := cheapestForwardPart?_approaches hvw hpart
  exact ⟨moves, t, rfl, happ⟩

end CouplingGraph

end CnotRouting
