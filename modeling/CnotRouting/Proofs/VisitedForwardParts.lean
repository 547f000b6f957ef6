import CnotRouting.Proofs.ForwardParts
import Mathlib.Data.List.Nodup
import Mathlib.Data.List.Perm.Subperm

/-!
# Visited forward parts

Which forward parts the search visits can be told without its recursion. Their moves carry the ends
one after the other over edges, to qubits that are met for the first time, and their last step
applies the CNOT where the ends then stand. A search that stops at an edge visits those whose ends
are joined by no edge before. Two of them differ in the first step where the search branches, so
none is visited twice.
-/

namespace CnotRouting

/-- A move of the control or of the target from where it stands to `i`, over an edge in the direction
that its kind needs. -/
inductive IsMove (g : CouplingGraph) (position : Nat × Nat) (i : Nat) : Step → Prop where
  | control_along (edge : g.hasEdge position.1 i = true) :
      IsMove g position i ⟨.move .control .along, position.1, i, none⟩
  | control_against (edge : g.hasEdge i position.1 = true) :
      IsMove g position i ⟨.move .control .against, position.1, i, none⟩
  | target_along (edge : g.hasEdge position.2 i = true) :
      IsMove g position i ⟨.move .target .along, position.2, i, none⟩
  | target_against (edge : g.hasEdge i position.2 = true) :
      IsMove g position i ⟨.move .target .against, position.2, i, none⟩

/-- The CNOT between the ends where they stand, along an edge or against one. -/
inductive IsStop (g : CouplingGraph) (position : Nat × Nat) : Step → Prop where
  | native (edge : g.hasEdge position.1 position.2 = true) :
      IsStop g position ⟨.native, position.1, position.2, none⟩
  | flip (edge : g.hasEdge position.2 position.1 = true) :
      IsStop g position ⟨.flip, position.1, position.2, none⟩

/-- Whether an edge joins the ends where they stand. -/
def AreJoined (g : CouplingGraph) (position : Nat × Nat) : Prop :=
  g.hasEdge position.1 position.2 = true ∨ g.hasEdge position.2 position.1 = true

namespace Route

/-- Whether every step is a move from where the steps before it have carried the ends. -/
def Walks (moves : Route) (g : CouplingGraph) (start : Nat × Nat) : Prop :=
  ∀ k s, moves[k]? = some s → IsMove g (relabel (moves.take k) start) s.b s

/-- Whether no edge joins the ends at the start of any move. -/
def StaysApart (moves : Route) (g : CouplingGraph) (start : Nat × Nat) : Prop :=
  ∀ k < moves.length, ¬ AreJoined g (relabel (moves.take k) start)

end Route

/-- Moves and a last step that make a forward part for the CNOT from `v` to `w`. -/
structure IsCandidate (g : CouplingGraph) (mode : SearchMode) (v w : Nat) (moves : Route)
    (last : Step) : Prop where
  walks : moves.Walks g (v, w)
  fresh : ∀ s ∈ moves, s.b ≠ v ∧ s.b ≠ w
  distinct : (moves.map Step.b).Nodup
  stops : IsStop g (moves.relabel (v, w)) last
  apart : mode = .stopAtEdge → moves.StaysApart g (v, w)

section

variable {g : CouplingGraph} {position : Nat × Nat} {i : Nat} {s : Step} {moves : Route}

theorem IsMove.b_eq (h : IsMove g position i s) : s.b = i := by
  cases h <;> rfl

theorem IsMove.exists_kind (h : IsMove g position i s) :
    ∃ endpoint heading, s.kind = .move endpoint heading := by
  cases h <;> exact ⟨_, _, rfl⟩

theorem IsMove.lt_size (h : IsMove g position i s) : i < g.size := by
  cases h with
  | control_along edge => exact (CouplingGraph.lt_size_of_hasEdge edge).2
  | control_against edge => exact (CouplingGraph.lt_size_of_hasEdge edge).1
  | target_along edge => exact (CouplingGraph.lt_size_of_hasEdge edge).2
  | target_against edge => exact (CouplingGraph.lt_size_of_hasEdge edge).1

namespace Route

theorem walks_nil : Walks [] g position := by
  simp [Walks]

theorem walks_cons : Walks (s :: moves) g position ↔
    IsMove g position s.b s ∧ Walks moves g (s.relabel position) := by
  constructor
  · intro h
    exact ⟨h 0 s rfl, fun k t ht => h (k + 1) t ht⟩
  · rintro ⟨first, rest⟩ k t ht
    cases k with
    | zero =>
      obtain rfl : s = t := by simpa using ht
      exact first
    | succ k => exact rest k t ht

theorem staysApart_nil : StaysApart [] g position := by
  simp [StaysApart]

theorem staysApart_cons : StaysApart (s :: moves) g position ↔
    ¬ AreJoined g position ∧ StaysApart moves g (s.relabel position) := by
  constructor
  · intro h
    exact ⟨h 0 (by simp), fun k hk => h (k + 1) (by simpa using hk)⟩
  · rintro ⟨first, rest⟩ k hk
    cases k with
    | zero => exact first
    | succ k => exact rest k (by simpa using hk)

theorem Walks.lt_size (h : Walks moves g position) {q : Nat} (hq : q ∈ moves.map Step.b) :
    q < g.size := by
  obtain ⟨s, hs, rfl⟩ := List.mem_map.1 hq
  obtain ⟨k, hk⟩ := List.mem_iff_getElem?.1 hs
  exact (h k s hk).lt_size

end Route

end

namespace CouplingGraph

variable {g : CouplingGraph}

theorem mem_terminalSteps_iff_isStop {v w : Nat} {s : Step} :
    s ∈ g.terminalSteps v w ↔ IsStop g (v, w) s := by
  rw [mem_terminalSteps]
  constructor
  · rintro (⟨edge, rfl⟩ | ⟨edge, rfl⟩)
    · exact .native edge
    · exact .flip edge
  · rintro (edge | edge)
    · exact .inl ⟨edge, rfl⟩
    · exact .inr ⟨edge, rfl⟩

theorem terminalSteps_eq_nil_iff {v w : Nat} :
    g.terminalSteps v w = [] ↔ ¬ AreJoined g (v, w) := by
  simp [terminalSteps, AreJoined]

/-- The moves to a qubit are listed with the positions they lead to. -/
theorem mem_movesTo_iff_isMove {v w i v' w' : Nat} {s : Step} :
    (s, v', w') ∈ g.movesTo v w i ↔ IsMove g (v, w) i s ∧ (v', w') = s.relabel (v, w) := by
  rw [mem_movesTo]
  constructor
  · rintro (⟨edge, rfl, rfl, rfl⟩ | ⟨edge, rfl, rfl, rfl⟩ | ⟨edge, rfl, rfl, rfl⟩ |
      ⟨edge, rfl, rfl, rfl⟩)
    · exact ⟨.control_along edge, by simp [Step.relabel, Step.carry]⟩
    · exact ⟨.control_against edge, by simp [Step.relabel, Step.carry]⟩
    · exact ⟨.target_along edge, by simp [Step.relabel, Step.carry]⟩
    · exact ⟨.target_against edge, by simp [Step.relabel, Step.carry]⟩
  · rintro ⟨move, position⟩
    cases move with
    | control_along edge => simp_all [Step.relabel, Step.carry]
    | control_against edge => simp_all [Step.relabel, Step.carry]
    | target_along edge => simp_all [Step.relabel, Step.carry]
    | target_against edge => simp_all [Step.relabel, Step.carry]

/-! ### Membership -/

theorem ne_nil_of_mem_forwardPartsFrom {mode : SearchMode} {free : List Nat} {v w : Nat} {r : Route}
    (h : r ∈ g.forwardPartsFrom mode free v w) : r ≠ [] :=
  (isForwardPart_of_mem h).ne_nil

theorem singleton_mem_forwardPartsFrom_iff {mode : SearchMode} {free : List Nat} {v w : Nat}
    {s : Step} : [s] ∈ g.forwardPartsFrom mode free v w ↔ IsStop g (v, w) s := by
  rw [← mem_terminalSteps_iff_isStop]
  constructor
  · intro h
    cases isForwardPart_of_mem h with
    | stop hs => exact hs
    | move _ _ tail => exact absurd rfl tail.ne_nil
  · exact singleton_mem_forwardPartsFrom

/-- The search goes on to a forward part by a move to a free qubit, unless it stops before. -/
theorem cons_mem_forwardPartsFrom_iff {mode : SearchMode} {free : List Nat} {v w : Nat} {s : Step}
    {r : Route} (hr : r ≠ []) : s :: r ∈ g.forwardPartsFrom mode free v w ↔
      (mode = .stopAtEdge → ¬ AreJoined g (v, w)) ∧ s.b ∈ free ∧ IsMove g (v, w) s.b s ∧
        r ∈ g.forwardPartsFrom mode (free.erase s.b) (s.relabel (v, w)).1 (s.relabel (v, w)).2 := by
  constructor
  · intro h
    have not_stop : s :: r ∉ (g.terminalSteps v w).map ([·]) := by
      intro h
      obtain ⟨t, -, heq⟩ := List.mem_map.1 h
      exact hr (List.cons.inj heq).2.symm
    rw [forwardPartsFrom_eq] at h
    split at h
    · exact absurd h not_stop
    · rename_i goes_on
      obtain ⟨i, hi, h⟩ := List.mem_flatMap.1 ((List.mem_append.1 h).resolve_left not_stop)
      obtain ⟨⟨t, v', w'⟩, hm, h⟩ := List.mem_flatMap.1 h
      obtain ⟨rest, hrest, heq⟩ := List.mem_map.1 h
      obtain ⟨rfl, rfl⟩ := List.cons.inj heq
      obtain ⟨move, position⟩ := mem_movesTo_iff_isMove.1 hm
      obtain rfl := move.b_eq
      refine ⟨fun stopping => ?_, hi, move, ?_⟩
      · rw [← terminalSteps_eq_nil_iff]
        by_contra stops
        exact goes_on ⟨stopping, stops⟩
      · rw [← position]
        exact hrest
  · rintro ⟨apart, free, move, rest⟩
    exact cons_mem_forwardPartsFrom (fun stopping => terminalSteps_eq_nil_iff.2 (apart stopping))
      free (mem_movesTo_iff_isMove.2 ⟨move, rfl⟩) rest

/-- What the search visits from a position, told without its recursion. -/
theorem mem_forwardPartsFrom_iff {mode : SearchMode} {free : List Nat} (hf : free.Nodup) {v w : Nat}
    {moves : Route} {last : Step} : moves ++ [last] ∈ g.forwardPartsFrom mode free v w ↔
      moves.Walks g (v, w) ∧ (∀ s ∈ moves, s.b ∈ free) ∧ (moves.map Step.b).Nodup ∧
        IsStop g (moves.relabel (v, w)) last ∧
        (mode = .stopAtEdge → moves.StaysApart g (v, w)) := by
  induction moves generalizing free v w with
  | nil => simp [singleton_mem_forwardPartsFrom_iff, Route.walks_nil, Route.staysApart_nil]
  | cons s moves ih =>
    rw [List.cons_append, cons_mem_forwardPartsFrom_iff (by simp), ih (hf.erase _)]
    -- the qubits of the later moves are free once that of the first is taken
    have later : (∀ t ∈ moves, t.b ∈ free.erase s.b) ↔
        (∀ t ∈ moves, t.b ∈ free) ∧ s.b ∉ moves.map Step.b := by
      simp only [hf.mem_erase_iff, List.mem_map, not_exists, not_and]
      exact ⟨fun h => ⟨fun t ht => (h t ht).2, fun t ht => (h t ht).1⟩,
        fun h t ht => ⟨h.2 t ht, h.1 t ht⟩⟩
    rw [later, Route.walks_cons, Route.staysApart_cons, List.forall_mem_cons, List.map_cons,
      List.nodup_cons, Route.relabel_cons]
    tauto

/-! ### No repetition -/

theorem nodup_terminalSteps (g : CouplingGraph) (v w : Nat) : (g.terminalSteps v w).Nodup := by
  rw [terminalSteps]
  split <;> split <;> simp

/-- The moves to one qubit differ in kind. -/
theorem pairwise_movesTo (g : CouplingGraph) (v w i : Nat) :
    (g.movesTo v w i).Pairwise fun m m' => m.1 ≠ m'.1 := by
  rw [movesTo]
  split <;> split <;> split <;> split <;> simp

/-- What goes on from a position by a move to `i`. -/
def onwardParts (g : CouplingGraph) (mode : SearchMode) (free : List Nat) (v w i : Nat) :
    List Route :=
  (g.movesTo v w i).flatMap fun m =>
    (g.forwardPartsFrom mode (free.erase i) m.2.1 m.2.2).map (m.1 :: ·)

theorem exists_cons_of_mem_onwardParts {mode : SearchMode} {free : List Nat} {v w i : Nat} {r : Route}
    (h : r ∈ g.onwardParts mode free v w i) : ∃ s tail, r = s :: tail ∧ s.b = i ∧ tail ≠ [] := by
  obtain ⟨⟨s, v', w'⟩, hm, h⟩ := List.mem_flatMap.1 h
  obtain ⟨tail, ht, rfl⟩ := List.mem_map.1 h
  exact ⟨s, tail, rfl, (mem_movesTo_iff_isMove.1 hm).1.b_eq, ne_nil_of_mem_forwardPartsFrom ht⟩

theorem nodup_onwardParts {mode : SearchMode} {free : List Nat} {v w i : Nat}
    (h : ∀ v' w', (g.forwardPartsFrom mode (free.erase i) v' w').Nodup) :
    (g.onwardParts mode free v w i).Nodup := by
  refine List.nodup_flatMap.2 ⟨?_, (g.pairwise_movesTo v w i).imp ?_⟩
  · intro m _
    exact (h m.2.1 m.2.2).map fun _ _ heq => (List.cons.inj heq).2
  · intro m m' differ r hr hr'
    obtain ⟨_, -, rfl⟩ := List.mem_map.1 hr
    obtain ⟨_, -, heq⟩ := List.mem_map.1 hr'
    exact differ (List.cons.inj heq).1.symm

/-- No forward part is visited twice. -/
theorem nodup_forwardPartsFrom {mode : SearchMode} {free : List Nat} (hf : free.Nodup) (v w : Nat) :
    (g.forwardPartsFrom mode free v w).Nodup := by
  induction hn : free.length using Nat.strongRecOn generalizing free v w with
  | _ n ih =>
    have at_once : ((g.terminalSteps v w).map ([·])).Nodup :=
      (g.nodup_terminalSteps v w).map fun _ _ h => List.singleton_inj.1 h
    have onward : (free.flatMap (g.onwardParts mode free v w)).Nodup := by
      refine List.nodup_flatMap.2 ⟨?_, hf.imp ?_⟩
      · intro i hi
        have shorter := List.length_erase_of_mem hi
        have positive := List.length_pos_of_mem hi
        exact nodup_onwardParts fun v' w' => ih _ (by omega) (hf.erase i) v' w' rfl
      · intro i j hij r hr hr'
        obtain ⟨s, tail, rfl, rfl, -⟩ := exists_cons_of_mem_onwardParts hr
        obtain ⟨s', tail', heq, rfl, -⟩ := exists_cons_of_mem_onwardParts hr'
        exact hij (congrArg Step.b (List.cons.inj heq).1)
    rw [forwardPartsFrom_eq]
    split
    · exact at_once
    · refine at_once.append onward ?_
      intro r hr hr'
      obtain ⟨i, -, hr'⟩ := List.mem_flatMap.1 hr'
      obtain ⟨s, -, rfl⟩ := List.mem_map.1 hr
      obtain ⟨t, tail, heq, -, nonempty⟩ := exists_cons_of_mem_onwardParts hr'
      exact nonempty (List.cons.inj heq).2.symm

end CouplingGraph

section

variable {g : CouplingGraph} {mode : SearchMode} {v w : Nat} {moves : Route} {last : Step}

/-- The forward parts of a pair are the candidates. -/
theorem CouplingGraph.mem_forwardParts_iff :
    moves ++ [last] ∈ g.forwardParts mode v w ↔ IsCandidate g mode v w moves last := by
  rw [forwardParts, mem_forwardPartsFrom_iff (g.nodup_othersThan v w)]
  constructor
  · rintro ⟨walks, others, distinct, stops, apart⟩
    exact ⟨walks, fun s hs => (mem_othersThan.1 (others s hs)).2, distinct, stops, apart⟩
  · intro h
    refine ⟨h.walks, ?_, h.distinct, h.stops, h.apart⟩
    intro s hs
    exact mem_othersThan.2 ⟨h.walks.lt_size (List.mem_map_of_mem hs), h.fresh s hs⟩

/-- With the two qubits of the pair, no more qubits are met than there are. -/
theorem IsCandidate.length_add_two_le (h : IsCandidate g mode v w moves last) (hv : v < g.size)
    (hw : w < g.size) (hvw : v ≠ w) : moves.length + 2 ≤ g.size := by
  have met : (v :: w :: moves.map Step.b).Nodup := by
    have fresh := h.fresh
    simp only [List.nodup_cons, List.mem_cons, List.mem_map, not_or, not_exists, not_and]
    exact ⟨⟨hvw, fun s hs => (fresh s hs).1⟩, fun s hs => (fresh s hs).2, h.distinct⟩
  have inside : v :: w :: moves.map Step.b ⊆ List.range g.size := by
    simp only [List.cons_subset, List.mem_range]
    exact ⟨hv, hw, fun q hq => List.mem_range.2 (h.walks.lt_size hq)⟩
  have count := (List.subperm_of_subset met inside).length_le
  simp only [List.length_cons, List.length_map, List.length_range] at count
  exact count

end

/-- The search for a pair of qubits visits exactly the candidates, each once, and none of them has
more moves than there are other qubits. -/
theorem search_visits_candidates_once {g : CouplingGraph} (mode : SearchMode) {v w : Nat}
    (hv : v < g.size) (hw : w < g.size) :
    ∃ parts, g.forwardPartsOfPair mode v w = .ok parts ∧
      (∀ {β : Type} (visit : β → Route → β) (acc : β),
        g.visitForwardParts visit mode (g.othersThan v w) v w [] acc = parts.foldl visit acc) ∧
      parts.Nodup ∧
      (∀ r, r ∈ parts ↔ ∃ moves last, r = moves ++ [last] ∧ IsCandidate g mode v w moves last) ∧
      (v ≠ w → ∀ moves last, IsCandidate g mode v w moves last → moves.length ≤ g.size - 2) := by
  refine ⟨g.forwardParts mode v w, if_pos ⟨hv, hw⟩, ?_, ?_, ?_, ?_⟩
  · intro β visit acc
    simp [CouplingGraph.visitForwardParts_eq, CouplingGraph.forwardParts]
  · exact CouplingGraph.nodup_forwardPartsFrom (g.nodup_othersThan v w) v w
  · intro r
    constructor
    · intro hr
      have nonempty : r ≠ [] := CouplingGraph.ne_nil_of_mem_forwardPartsFrom hr
      obtain ⟨moves, last, rfl⟩ := (List.eq_nil_or_concat' r).resolve_left nonempty
      exact ⟨moves, last, rfl, CouplingGraph.mem_forwardParts_iff.1 hr⟩
    · rintro ⟨moves, last, rfl, candidate⟩
      exact CouplingGraph.mem_forwardParts_iff.2 candidate
  · intro hvw moves last candidate
    exact Nat.le_sub_of_add_le (candidate.length_add_two_le hv hw hvw)

theorem search_visits_candidates_once_chain_three :
    ∃ parts, (CouplingGraph.chain 3).forwardPartsOfPair .stopAtEdge 2 0 = .ok parts ∧ parts.Nodup ∧
      [⟨.move .control .against, 2, 1, none⟩, ⟨.flip, 1, 0, none⟩] ∈ parts ∧
      ∀ moves last, IsCandidate (.chain 3) .stopAtEdge 2 0 moves last → moves.length ≤ 1 := by
  obtain ⟨parts, hparts, -, nodup, visited, bound⟩ :=
    search_visits_candidates_once (g := .chain 3) .stopAtEdge (v := 2) (w := 0) (by decide) (by decide)
  refine ⟨parts, hparts, nodup, (visited _).2 ⟨[_], _, rfl, ?_⟩, bound (by decide)⟩
  constructor
  · exact Route.walks_cons.2 ⟨.control_against (by decide), Route.walks_nil⟩
  · simp
  · simp
  · exact .flip (by decide)
  · intro _
    exact Route.staysApart_cons.2 ⟨by unfold AreJoined; decide, Route.staysApart_nil⟩

end CnotRouting
