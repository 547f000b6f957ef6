import CnotRouting.RouteLowering

/-!
# The parts of a route

A route that realises a CNOT has one terminal step. The steps before it carry the ends of the CNOT
to where the terminal step acts, and those after it carry them home. Such a route is lowered step
by step, and its gates are its cost and one more.
-/

namespace CnotRouting

theorem Step.relabel_of_isTerminal {s : Step} (h : s.kind.isTerminal = true)
    (position : Nat × Nat) : s.relabel position = position := by
  rcases s with ⟨_ | _ | _ | _ | _, a, b, c⟩ <;> simp_all [StepKind.isTerminal, Step.relabel]

namespace Route

/-- Whether no step of the route applies the CNOT. -/
def Carries (r : Route) : Prop := ∀ s ∈ r, s.kind.isTerminal = false

@[simp] theorem carries_nil : Carries [] := by
  simp [Carries]

@[simp] theorem carries_cons {s : Step} {r : Route} :
    Carries (s :: r) ↔ s.kind.isTerminal = false ∧ Carries r := by
  simp [Carries]

@[simp] theorem carries_append {r q : Route} : Carries (r ++ q) ↔ Carries r ∧ Carries q := by
  simp [Carries, or_imp, forall_and]

theorem Carries.undone {r : Route} (h : Carries r) : Carries (r.reverse.map Step.inverse) := by
  intro s hs
  obtain ⟨s', hs', rfl⟩ := List.mem_map.1 hs
  simpa [Step.inverse] using h s' (List.mem_reverse.1 hs')

/-- Where a route can be cut at its one terminal step, which acts where the steps before it carry
the ends, so that all carrying steps together bring the ends to `home`. -/
structure SplitsAt (r : Route) (home start : Nat × Nat) (before : Route) (t : Step)
    (after : Route) : Prop where
  eq : r = before ++ t :: after
  carries_before : before.Carries
  terminal : t.kind.isTerminal = true
  carries_after : after.Carries
  acts_at : (t.a, t.far) = before.relabel start
  returns : (before ++ after).relabel start = home

theorem SplitsAt.relabel_eq {r before after : Route} {t : Step} {home start : Nat × Nat}
    (h : r.SplitsAt home start before t after) : r.relabel start = home := by
  rw [h.eq, relabel_append, relabel_cons, Step.relabel_of_isTerminal h.terminal, ← relabel_append,
    h.returns]

theorem realizesFrom_applied {home position : Nat × Nat} {r : Route} :
    realizesFrom home r position true = true ↔ r.Carries ∧ r.relabel position = home := by
  induction r generalizing position with
  | nil => simp [realizesFrom]
  | cons s r ih =>
    cases hs : s.kind.isTerminal with
    | true => simp [realizesFrom, hs]
    | false => simp [realizesFrom, hs, ih]

theorem realizesFrom_waiting {home position : Nat × Nat} {r : Route} :
    realizesFrom home r position false = true ↔
      ∃ before t after, r.SplitsAt home position before t after := by
  induction r generalizing position with
  | nil =>
    constructor
    · intro h
      simp [realizesFrom] at h
    · rintro ⟨before, t, after, h⟩
      simpa using h.eq
  | cons s r ih =>
    cases hs : s.kind.isTerminal with
    | true =>
      simp only [realizesFrom, hs, if_true, Bool.not_false, Bool.true_and, Bool.and_eq_true,
        beq_iff_eq, realizesFrom_applied]
      constructor
      · rintro ⟨hpos, hcar, hhome⟩
        exact ⟨[], s, r, rfl, carries_nil, hs, hcar, hpos, hhome⟩
      · rintro ⟨before, t, after, heq, hb, -, ha, hpos, hhome⟩
        cases before with
        | nil =>
          obtain ⟨rfl, rfl⟩ := List.cons.inj heq
          exact ⟨hpos, ha, hhome⟩
        | cons s' before =>
          obtain ⟨rfl, -⟩ := List.cons.inj heq
          simp [hs] at hb
    | false =>
      simp only [realizesFrom, hs, Bool.false_eq_true, if_false, ih]
      constructor
      · rintro ⟨before, t, after, rfl, hb, ht, ha, hpos, hhome⟩
        exact ⟨s :: before, t, after, rfl, by simp [hs, hb], ht, ha, hpos, hhome⟩
      · rintro ⟨before, t, after, heq, hb, ht, ha, hpos, hhome⟩
        cases before with
        | nil =>
          obtain ⟨rfl, -⟩ := List.cons.inj heq
          simp [hs] at ht
        | cons s' before =>
          obtain ⟨rfl, rfl⟩ := List.cons.inj heq
          exact ⟨before, t, after, rfl, (carries_cons.1 hb).2, ht, ha, hpos, hhome⟩

/-- A route realises a CNOT exactly if it splits at a terminal step. -/
theorem realizes_iff_splitsAt {r : Route} {v w : Nat} :
    r.realizes v w = true ↔ ∃ before t after, r.SplitsAt (v, w) (v, w) before t after :=
  realizesFrom_waiting

/-! ### Lowering -/

/-- While no second cascade is met, the steps are lowered one by one. -/
theorem foldl_lowerStep {r : Route} {gates : List Gate} {k : Nat}
    (h : k + r.countP (·.kind = .cascade) ≤ 1) :
    (r.foldl lowerStep (gates, k)).1 = gates ++ r.flatMap Step.gates := by
  induction r generalizing gates k with
  | nil => simp
  | cons s r ih =>
    by_cases hs : s.kind = .cascade
    · simp only [List.countP_cons, hs, decide_true, if_true] at h
      obtain rfl : k = 0 := by omega
      have step : lowerStep (gates, 0) s = (gates ++ s.gates, 1) := by simp [lowerStep, hs]
      rw [List.foldl_cons, step, ih (by omega), List.flatMap_cons, List.append_assoc]
    · have step : lowerStep (gates, k) s = (gates ++ s.gates, k) := by
        simp only [lowerStep]
      simp only [List.countP_cons, hs, decide_false, Bool.false_eq_true, if_false] at h
      rw [List.foldl_cons, step, ih (by omega), List.flatMap_cons, List.append_assoc]

theorem countP_cascade_of_carries {r : Route} (h : r.Carries) :
    r.countP (·.kind = .cascade) = 0 := by
  rw [List.countP_eq_zero]
  intro s hs hk
  have := h s hs
  simp_all [StepKind.isTerminal]

theorem lower_of_carries {r : Route} (h : r.Carries) : r.lower = r.flatMap Step.gates := by
  have none : 0 + r.countP (·.kind = .cascade) ≤ 1 := by simp [countP_cascade_of_carries h]
  rw [lower, foldl_lowerStep none, List.nil_append]

/-- A route with one terminal step is lowered step by step. -/
theorem lower_of_splitsAt {r before after : Route} {t : Step} {home start : Nat × Nat}
    (h : r.SplitsAt home start before t after) :
    r.lower = before.flatMap Step.gates ++ t.gates ++ after.flatMap Step.gates := by
  have one : 0 + r.countP (·.kind = .cascade) ≤ 1 := by
    rw [h.eq, List.countP_append, List.countP_cons, countP_cascade_of_carries h.carries_before,
      countP_cascade_of_carries h.carries_after]
    split <;> omega
  rw [lower, foldl_lowerStep one, h.eq]
  simp

end Route

/-- A terminal step is made of one gate more than it costs, any other of as many. -/
theorem Step.length_gates (s : Step) :
    s.gates.length = s.cost + if s.kind.isTerminal then 1 else 0 := by
  rcases s with ⟨⟨_ | _, _ | _⟩ | ⟨_ | _, _ | _⟩ | _ | _ | _, a, b, c⟩ <;> rfl

namespace Route

/-- Steps that are lowered one by one are made of as many gates as they cost, and of one more for each
terminal step. -/
theorem length_flatMap_gates (r : Route) :
    (r.flatMap Step.gates).length = r.cost + r.countP (·.kind.isTerminal) := by
  induction r with
  | nil => rfl
  | cons s r ih =>
    rw [List.flatMap_cons, List.length_append, s.length_gates, ih, cost_cons, List.countP_cons]
    omega

theorem countP_isTerminal_of_carries {r : Route} (h : r.Carries) :
    r.countP (·.kind.isTerminal) = 0 := by
  rw [List.countP_eq_zero]
  intro s hs
  simp [h s hs]

theorem mem_lower_of_splitsAt {r before after : Route} {t : Step} {home start : Nat × Nat}
    (h : r.SplitsAt home start before t after) {k : Gate} (hk : k ∈ r.lower) :
    ∃ s ∈ r, k ∈ s.gates := by
  rw [lower_of_splitsAt h, List.mem_append, List.mem_append] at hk
  rw [h.eq]
  rcases hk with (hk | hk) | hk
  · obtain ⟨s, hs, hks⟩ := List.mem_flatMap.1 hk
    exact ⟨s, List.mem_append_left _ hs, hks⟩
  · exact ⟨t, by simp, hk⟩
  · obtain ⟨s, hs, hks⟩ := List.mem_flatMap.1 hk
    exact ⟨s, by simp [hs], hks⟩

/-- A route that realises a CNOT has one gate more than it costs. -/
theorem length_lower {r : Route} {v w : Nat} (h : r.realizes v w = true) :
    r.lower.length = r.cost + 1 := by
  obtain ⟨before, t, after, hs⟩ := realizes_iff_splitsAt.1 h
  rw [lower_of_splitsAt hs, hs.eq]
  simp only [List.length_append, length_flatMap_gates, Step.length_gates, hs.terminal, if_true,
    countP_isTerminal_of_carries hs.carries_before, countP_isTerminal_of_carries hs.carries_after,
    cost_append, cost_cons]
  omega

end Route

end CnotRouting
