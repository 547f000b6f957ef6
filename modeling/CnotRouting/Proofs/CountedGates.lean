import CnotRouting.NumberBounds
import CnotRouting.Proofs.RouteParts
import Mathlib.Algebra.Group.Nat.Defs

/-!
# Counted gates

The gates of a route are counted without being written down. The count and the lowering go through
the steps side by side: after each step they have met the same cascades and as many gates, so that a
later cascade copies as many gates as are counted for it. Where no gates are copied, each step stands
for as many gates as it costs, and a terminal step for the CNOT as well.
-/

namespace CnotRouting

theorem copiedLength_eq (n : Nat) : copiedLength n = 2 ^ n + 2 ^ (n + 1) - 2 := by
  rw [copiedLength, Nat.one_shiftLeft, Nat.one_shiftLeft]

namespace Route

/-- The number of cascades among the steps. -/
def cascadeCount (r : Route) : Nat := r.countP (·.kind = .cascade)

/-- The number of steps that apply the CNOT. -/
def terminalCount (r : Route) : Nat := r.countP (·.kind.isTerminal)

/-- What is counted for a step is what it is lowered to, whatever gates are there before it. -/
theorem countStep_length (gates : List Gate) (cascades : Nat) (s : Step) :
    countStep (gates.length, cascades) s =
      ((lowerStep (gates, cascades) s).1.length, (lowerStep (gates, cascades) s).2) := by
  have alone : (gates ++ s.gates).length =
      gates.length + (s.cost + if s.kind.isTerminal then 1 else 0) := by
    rw [List.length_append, s.length_gates]
  cases hs : s.kind with
  | move e h => simpa [countStep, lowerStep, hs, StepKind.isTerminal] using alone.symm
  | undo e h => simpa [countStep, lowerStep, hs, StepKind.isTerminal] using alone.symm
  | native => simp [countStep, lowerStep, Step.gates, hs]
  | flip => simp [countStep, lowerStep, Step.gates, hs]
  | cascade =>
    by_cases first : cascades = 0
    · simp [countStep, lowerStep, Step.gates, hs, first]
    · -- The copy is what is left when all but its length are dropped.
      have copied : gates.length - (gates.length - copiedLength cascades) =
          min (copiedLength cascades) gates.length := by omega
      simp [countStep, lowerStep, hs, first, copied]

/-- The steps are counted and lowered side by side. -/
theorem foldl_countStep_length (r : Route) (gates : List Gate) (cascades : Nat) :
    r.foldl countStep (gates.length, cascades) =
      ((r.foldl lowerStep (gates, cascades)).1.length,
        (r.foldl lowerStep (gates, cascades)).2) := by
  induction r generalizing gates cascades with
  | nil => rfl
  | cons s r ih =>
    rw [List.foldl_cons, List.foldl_cons, countStep_length]
    exact ih _ _

theorem gateCount_eq_length (r : Route) : r.gateCount = r.lower.length := by
  have counted := foldl_countStep_length r [] 0
  exact congrArg Prod.fst counted

/-- A route of one cascade at most copies no gates. -/
theorem length_lower_of_cascadeCount {r : Route} (h : r.cascadeCount ≤ 1) :
    r.lower.length = r.cost + r.terminalCount := by
  have single : 0 + r.countP (·.kind = .cascade) ≤ 1 := by
    rw [Nat.zero_add]
    exact h
  rw [lower, foldl_lowerStep single, List.nil_append, length_flatMap_gates, terminalCount]

theorem snd_foldl_countStep (r : Route) (counts : Nat × Nat) :
    (r.foldl countStep counts).2 = counts.2 + r.cascadeCount := by
  induction r generalizing counts with
  | nil => rfl
  | cons s r ih =>
    have step : (countStep counts s).2 = counts.2 + if s.kind = .cascade then 1 else 0 := by
      cases hs : s.kind with
      | cascade => by_cases first : counts.2 = 0 <;> simp [countStep, hs, first]
      | _ => simp [countStep, hs]
    rw [List.foldl_cons, ih, step, cascadeCount, cascadeCount, List.countP_cons]
    simp only [decide_eq_true_eq]
    omega

/-- A step counts for six gates at most, apart from what a later cascade copies. -/
theorem countStep_le (counts : Nat × Nat) (s : Step) :
    (countStep counts s).1 + 3 * 2 ^ counts.2 ≤
      counts.1 + 6 + 3 * 2 ^ (countStep counts s).2 := by
  obtain ⟨gates, cascades⟩ := counts
  cases hs : s.kind with
  | move endpoint heading =>
    have : s.cost ≤ 6 := by
      rw [Step.cost, hs]
      cases endpoint <;> cases heading <;> decide
    simp only [countStep, hs]
    omega
  | undo endpoint heading =>
    have : s.cost ≤ 6 := by
      rw [Step.cost, hs]
      cases endpoint <;> cases heading <;> decide
    simp only [countStep, hs]
    omega
  | native => simp [countStep, hs]
  | flip => simp [countStep, hs]
  | cascade =>
    by_cases first : cascades = 0
    · simp [countStep, hs, first]
    · have copied := copiedLength_eq cascades
      have positive := Nat.one_le_two_pow (n := cascades)
      simp only [countStep, hs, if_neg first, Nat.pow_succ] at copied ⊢
      omega

theorem foldl_countStep_le (r : Route) (counts : Nat × Nat) :
    (r.foldl countStep counts).1 + 3 * 2 ^ counts.2 ≤
      counts.1 + 6 * r.length + 3 * 2 ^ (r.foldl countStep counts).2 := by
  induction r generalizing counts with
  | nil => simp
  | cons s r ih =>
    have step := countStep_le counts s
    have rest := ih (countStep counts s)
    rw [List.foldl_cons, List.length_cons]
    omega

/-- What the cascades of a route copy doubles with every one of them. -/
theorem gateCount_le (r : Route) : r.gateCount + 3 ≤ 6 * r.length + 3 * 2 ^ r.cascadeCount := by
  have bound := foldl_countStep_le r (0, 0)
  rw [snd_foldl_countStep] at bound
  simpa [gateCount] using bound

theorem gateCount_lt_countBound {r : Route} (few : r.cascadeCount < 63)
    (short : r.length < 1 <<< 59) : r.gateCount < countBound := by
  have power : 2 ^ r.cascadeCount ≤ 2 ^ 62 :=
    Nat.pow_le_pow_right (by decide) (Nat.le_of_lt_succ few)
  have count := r.gateCount_le
  have steps : 1 <<< 59 = 2 ^ 59 := by decide
  have bound : countBound = 6 * 2 ^ 59 + 3 * 2 ^ 62 + 2 ^ 60 := by decide
  omega

theorem cascadeCount_lt_of_cascade {before after : Route} {s : Step} (hs : s.kind = .cascade) :
    cascadeCount before < cascadeCount (before ++ s :: after) := by
  simp only [cascadeCount, List.countP_append, List.countP_cons, hs, decide_true, if_true]
  omega

end Route

theorem copiedLength_lt_countBound {n : Nat} (h : n < 63) : copiedLength n < countBound := by
  have small : 2 ^ n ≤ 2 ^ 62 := Nat.pow_le_pow_right (by decide) (Nat.le_of_lt_succ h)
  have bound : countBound = 4 * 2 ^ 62 := by decide
  rw [copiedLength_eq, Nat.pow_succ]
  omega

/-- As many gates are counted for a route as it is lowered to, whatever its steps are. If at most
one of them is a cascade, that is their cost and one gate more for each terminal step. As long as
there are fewer than 64 cascades, the length that a cascade copies is a number of 64 bits; with fewer
than 63 of them, and no more steps than can be kept, so is what is counted up to any step. -/
theorem gateCount_counts_lowered_gates (r : Route) :
    r.lower.length = r.gateCount ∧
      (r.cascadeCount ≤ 1 → r.gateCount = r.cost + r.terminalCount) ∧
      (r.cascadeCount < 64 → ∀ (before after : Route) (s : Step), r = before ++ s :: after →
        s.kind = .cascade → copiedLength before.cascadeCount < countBound) ∧
      (r.cascadeCount < 63 → r.length < 1 <<< 59 → ∀ before after : Route, r = before ++ after →
        before.gateCount < countBound) := by
  refine ⟨r.gateCount_eq_length.symm, fun single => ?_, fun few before after s heq hs => ?_, ?_⟩
  · rw [r.gateCount_eq_length, Route.length_lower_of_cascadeCount single]
  · have later : before.cascadeCount < r.cascadeCount := by
      rw [heq]
      exact Route.cascadeCount_lt_of_cascade hs
    exact copiedLength_lt_countBound (by omega)
  · rintro few short before after rfl
    have cascades : before.cascadeCount ≤ Route.cascadeCount (before ++ after) := by
      simp [Route.cascadeCount, List.countP_append]
    rw [List.length_append] at short
    exact Route.gateCount_lt_countBound (by omega) (by omega)

/-- One cascade among moves, and three cascades with other steps between them. -/
theorem gateCount_counts_lowered_gates_mixed :
    let single : Route := [⟨.move .control .against, 0, 1, none⟩, .cascade 1 2 3,
      ⟨.flip, 3, 4, none⟩, ⟨.undo .control .against, 0, 1, none⟩]
    let several : Route := [.cascade 0 1 2, ⟨.native, 2, 3, none⟩, .cascade 0 2 3,
      ⟨.flip, 3, 4, none⟩, .cascade 0 3 4]
    (single.cascadeCount ≤ 1 ∧ single.gateCount = single.cost + single.terminalCount ∧
        single.lower.length = 19) ∧
      several.cascadeCount < 63 ∧ copiedLength 2 < countBound ∧ several.gateCount < countBound ∧
        several.lower.length = 28 := by
  intro single several
  have one : single.cascadeCount ≤ 1 := by decide
  have three : several.cascadeCount < 63 := by decide
  obtain ⟨length, cost, -⟩ := gateCount_counts_lowered_gates single
  obtain ⟨lengths, -, copies, counts⟩ := gateCount_counts_lowered_gates several
  have copy := copies (by omega) [.cascade 0 1 2, ⟨.native, 2, 3, none⟩, .cascade 0 2 3,
    ⟨.flip, 3, 4, none⟩] [] (.cascade 0 3 4) rfl rfl
  exact ⟨⟨one, cost one, length.trans rfl⟩, three, copy,
    counts three (by decide) several [] (by simp), lengths.trans rfl⟩

end CnotRouting
