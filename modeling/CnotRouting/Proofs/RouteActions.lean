import CnotRouting.Proofs.NativeRoutes
import CnotRouting.Proofs.StepActions

/-!
# The action of routes on state vectors

A route is followed through its steps: as long as the way is clear, the CNOT applied where the
steps carry its ends has the effect of the CNOT at home. A route that realises a CNOT therefore acts
as this CNOT and then as its carrying steps alone, and as the CNOT exactly if these cancel. Moves
that are taken back in reverse order do cancel.
-/

namespace CnotRouting

universe u

/-- Whether the way of a carrying step is clear: no end stands on the line that the step leads to,
and the end that it does not carry stands on neither of its lines. -/
def Step.IsClear (s : Step) (position : Nat × Nat) : Prop :=
  match s.kind with
  | .move .control _ => position.1 ≠ s.b ∧ position.2 ≠ s.a ∧ position.2 ≠ s.b
  | .move .target _ => position.2 ≠ s.b ∧ position.1 ≠ s.a ∧ position.1 ≠ s.b
  | .undo .control _ => position.1 ≠ s.a ∧ position.2 ≠ s.a ∧ position.2 ≠ s.b
  | .undo .target _ => position.2 ≠ s.a ∧ position.1 ≠ s.a ∧ position.1 ≠ s.b
  | .native | .flip | .cascade => True

/-- Whether the way of every step is clear when the ends start at `position`. -/
def Route.IsClear : Route → (position : Nat × Nat) → Prop
  | [], _ => True
  | s :: r, position => s.IsClear position ∧ IsClear r (s.relabel position)

/-- Two distinct lines among the first `n`. -/
structure IsPair (n : Nat) (position : Nat × Nat) : Prop where
  ne : position.1 ≠ position.2
  fst_lt : position.1 < n
  snd_lt : position.2 < n

theorem carry_lt {a b q n : Nat} (hb : b < n) (hq : q < n) : Step.carry a b q < n := by
  rw [Step.carry]
  split <;> assumption

theorem Step.IsClear.isPair {s : Step} {position : Nat × Nat} {n : Nat} (h : s.IsClear position)
    (ha : s.a < n) (hb : s.b < n) (hp : IsPair n position) : IsPair n (s.relabel position) := by
  obtain ⟨v, w⟩ := position
  obtain ⟨hvw, hv, hw⟩ := hp
  rcases s with ⟨⟨_ | _, _⟩ | ⟨_ | _, _⟩ | _ | _ | _, a, b, c⟩ <;>
    simp only [IsClear, relabel] at h ⊢
  · refine ⟨?_, carry_lt hb hv, hw⟩
    simp only [carry]
    split <;> omega
  · refine ⟨?_, hv, carry_lt hb hw⟩
    simp only [carry]
    split <;> omega
  · refine ⟨?_, carry_lt ha hv, hw⟩
    simp only [carry]
    split <;> omega
  · refine ⟨?_, hv, carry_lt ha hw⟩
    simp only [carry]
    split <;> omega
  · exact ⟨hvw, hv, hw⟩
  · exact ⟨hvw, hv, hw⟩
  · exact ⟨hvw, hv, hw⟩

theorem carry_carry {a b q : Nat} (h : q ≠ b) : Step.carry b a (Step.carry a b q) = q := by
  unfold Step.carry
  split <;> simp_all

/-- On a clear way, the step back brings the ends back. -/
theorem Step.IsClear.relabel_inverse {s : Step} {position : Nat × Nat} (h : s.IsClear position) :
    s.inverse.relabel (s.relabel position) = position := by
  rcases s with ⟨⟨_ | _, _⟩ | ⟨_ | _, _⟩ | _ | _ | _, a, b, c⟩ <;>
    simp only [IsClear] at h <;>
    simp [Step.inverse, StepKind.inverse, relabel, carry_carry, h]

theorem Route.IsClear.relabel_undone {r : Route} {position : Nat × Nat} (h : r.IsClear position) :
    Route.relabel (r ++ r.reverse.map Step.inverse) position = position := by
  induction r generalizing position with
  | nil => rfl
  | cons s r ih =>
    have tail := ih h.2
    simp only [Route.relabel_append] at tail
    simp only [List.reverse_cons, List.map_append, List.map_cons, List.map_nil, List.cons_append,
      Route.relabel_cons, Route.relabel_append, Route.relabel_nil, tail]
    exact h.1.relabel_inverse

variable {R : Type u} [CommRing R] {n : Nat} (m : GateMatrices R)

/-- On a clear way, the CNOT after a carrying step is the CNOT before it. -/
theorem act_cnot_after_step {s : Step} {v w : Nat} (carries : s.kind.isTerminal = false)
    (clear : s.IsClear (v, w)) (hab : s.a ≠ s.b) (ha : s.a < n) (hb : s.b < n)
    (hp : IsPair n (v, w)) (ψ : StateVector R n) :
    (Gate.cnot (s.relabel (v, w)).1 (s.relabel (v, w)).2).act m (actAll m s.gates ψ) =
      actAll m s.gates ((Gate.cnot v w).act m ψ) := by
  obtain ⟨kind, a, b, c⟩ := s
  obtain ⟨-, -, hw⟩ := hp
  simp only at hab ha hb hw
  cases kind with
  | move e h =>
    rw [act_move m hab ha hb, act_move m hab ha hb]
    cases e with
    | control =>
      obtain ⟨hvb, hwa, hwb⟩ := clear
      by_cases hva : v = a
      · simpa [Step.relabel, Step.carry, hva] using carry_control m hab hwa hwb ha hb hw h ψ
      · simpa [Step.relabel, Step.carry, hva] using carry_aside m hva hvb hwa hwb ha hb hw _ h ψ
    | target =>
      obtain ⟨hwb, hva, hvb⟩ := clear
      by_cases hwa : w = a
      · simpa [Step.relabel, Step.carry, hwa] using carry_target m hab hva hvb ha hb h ψ
      · simpa [Step.relabel, Step.carry, hwa] using carry_aside m hva hvb hwa hwb ha hb hw _ h ψ
  | undo e h =>
    rw [act_undo m hab ha hb, act_undo m hab ha hb]
    have inverse : ∀ g ∈ carryGates e h a b, ∀ φ : StateVector R n, g.act m (g.act m φ) = φ :=
      fun g hg => carryGates_involutive m hab ha hb hg
    cases e with
    | control =>
      obtain ⟨hva, hwa, hwb⟩ := clear
      by_cases hvb : v = b
      · have back := reverse_turns_back m inverse (carry_control m hab hwa hwb ha hb hw h) ψ
        simpa [Step.relabel, Step.carry, hvb] using back
      · have back := reverse_turns_back m inverse (carry_aside m hva hvb hwa hwb ha hb hw _ h) ψ
        simpa [Step.relabel, Step.carry, hvb] using back
    | target =>
      obtain ⟨hwa, hva, hvb⟩ := clear
      by_cases hwb : w = b
      · have back := reverse_turns_back m inverse (carry_target m hab hva hvb ha hb h) ψ
        simpa [Step.relabel, Step.carry, hwb] using back
      · have back := reverse_turns_back m inverse (carry_aside m hva hvb hwa hwb ha hb hw _ h) ψ
        simpa [Step.relabel, Step.carry, hwb] using back
  | native => simp [StepKind.isTerminal] at carries
  | flip => simp [StepKind.isTerminal] at carries
  | cascade => simp [StepKind.isTerminal] at carries

/-- A carrying step and the step back cancel. -/
theorem act_step_inverse {s : Step} (carries : s.kind.isTerminal = false) (hab : s.a ≠ s.b)
    (ha : s.a < n) (hb : s.b < n) (ψ : StateVector R n) :
    actAll m s.inverse.gates (actAll m s.gates ψ) = ψ := by
  obtain ⟨kind, a, b, c⟩ := s
  cases kind with
  | move e h =>
    have inverse : ∀ g ∈ carryGates e h a b, ∀ φ : StateVector R n, g.act m (g.act m φ) = φ :=
      fun g hg => carryGates_involutive m hab ha hb hg
    simp only [Step.inverse, StepKind.inverse]
    rw [act_undo m hab ha hb, act_move m hab ha hb]
    exact actAll_reverse m inverse ψ
  | undo e h =>
    have inverse : ∀ g ∈ (carryGates e h a b).reverse, ∀ φ : StateVector R n,
        g.act m (g.act m φ) = φ :=
      fun g hg => carryGates_involutive m hab ha hb (List.mem_reverse.1 hg)
    simp only [Step.inverse, StepKind.inverse]
    rw [act_undo m hab ha hb, act_move m hab ha hb]
    simpa using actAll_reverse m inverse ψ
  | native => simp [StepKind.isTerminal] at carries
  | flip => simp [StepKind.isTerminal] at carries
  | cascade => simp [StepKind.isTerminal] at carries

namespace Route

variable {g : CouplingGraph}

theorem IsClear.isPair {r : Route} {position : Nat × Nat} (clear : r.IsClear position)
    (native : ∀ s ∈ r, s.IsNative g) (hp : IsPair g.size position) :
    IsPair g.size (r.relabel position) := by
  induction r generalizing position with
  | nil => exact hp
  | cons s r ih =>
    obtain ⟨hs, hr⟩ := clear
    have lt := (native s List.mem_cons_self).lt
    exact ih hr (fun s' hs' => native s' (List.mem_cons_of_mem s hs')) (hs.isPair lt.1 lt.2 hp)

/-- On a clear way, the CNOT after carrying steps is the CNOT before them. -/
theorem act_cnot_after {r : Route} {v w : Nat} (valid : g.IsValid) (carries : r.Carries)
    (native : ∀ s ∈ r, s.IsNative g) (clear : r.IsClear (v, w)) (hp : IsPair g.size (v, w))
    (ψ : StateVector R g.size) :
    (Gate.cnot (r.relabel (v, w)).1 (r.relabel (v, w)).2).act m
        (actAll m (r.flatMap Step.gates) ψ) =
      actAll m (r.flatMap Step.gates) ((Gate.cnot v w).act m ψ) := by
  induction r generalizing v w ψ with
  | nil => rfl
  | cons s r ih =>
    obtain ⟨hs, hr⟩ := carries_cons.1 carries
    obtain ⟨hcs, hcr⟩ := clear
    have here := native s List.mem_cons_self
    have moved := act_cnot_after_step m hs hcs (here.ne valid) here.lt.1 here.lt.2 hp ψ
    have rest := ih hr (fun s' hs' => native s' (List.mem_cons_of_mem s hs')) hcr
      (hcs.isPair here.lt.1 here.lt.2 hp) (actAll m s.gates ψ)
    rw [List.flatMap_cons, actAll_append, actAll_append, ← moved]
    exact rest

/-- Carrying steps that are taken back in reverse order leave no trace. -/
theorem act_undone {r : Route} (valid : g.IsValid) (carries : r.Carries)
    (native : ∀ s ∈ r, s.IsNative g) (ψ : StateVector R g.size) :
    actAll m ((r.reverse.map Step.inverse).flatMap Step.gates)
      (actAll m (r.flatMap Step.gates) ψ) = ψ := by
  induction r generalizing ψ with
  | nil => rfl
  | cons s r ih =>
    obtain ⟨hs, hr⟩ := carries_cons.1 carries
    have here := native s List.mem_cons_self
    have tail := ih hr (fun s' hs' => native s' (List.mem_cons_of_mem s hs')) (actAll m s.gates ψ)
    simp only [List.reverse_cons, List.map_append, List.map_cons, List.map_nil, List.flatMap_append,
      List.flatMap_cons, List.flatMap_nil, List.append_nil, actAll_append]
    rw [tail]
    exact act_step_inverse m hs (here.ne valid) here.lt.1 here.lt.2 ψ

/-- A native terminal step acts as the CNOT between its far operands, if they are distinct. -/
theorem act_native_terminal {t : Step} (valid : g.IsValid) (terminal : t.kind.isTerminal = true)
    (native : t.IsNative g) (ne : t.a ≠ t.far) (ψ : StateVector R g.size) :
    actAll m t.gates ψ = (Gate.cnot t.a t.far).act m ψ := by
  refine act_terminal m terminal (native.ne valid) native.lt.1 native.lt.2 native.third_eq_none ?_ ψ
  intro hk
  have edge := native.hasEdge_far hk
  exact ⟨ne.symm, (valid.ne edge).symm, (g.lt_size_of_hasEdge edge).2⟩

theorem native_parts {r before after : Route} {t : Step} {home start : Nat × Nat}
    (native : ∀ s ∈ r, s.IsNative g) (split : r.SplitsAt home start before t after) :
    (∀ s ∈ before, s.IsNative g) ∧ t.IsNative g := by
  rw [split.eq] at native
  exact ⟨fun s hs => native s (List.mem_append_left _ hs), native t (by simp)⟩

/-- A route with one terminal step acts as its steps before, the CNOT of the terminal step, and its
steps after, in order. -/
theorem act_in_order {r before after : Route} {t : Step} {home start : Nat × Nat}
    (valid : g.IsValid) (native : ∀ s ∈ r, s.IsNative g)
    (split : r.SplitsAt home start before t after) (ne : t.a ≠ t.far) (ψ : StateVector R g.size) :
    actAll m r.lower ψ =
      actAll m after.lower ((Gate.cnot t.a t.far).act m (actAll m before.lower ψ)) := by
  have terminal := act_native_terminal m valid split.terminal (native_parts native split).2 ne
  rw [lower_of_splitsAt split, lower_of_carries split.carries_before,
    lower_of_carries split.carries_after, actAll_append, actAll_append, terminal]

/-- On a clear way, a route that realises the CNOT of a pair acts as this CNOT, followed by its
carrying steps alone. -/
theorem act_lower {r before after : Route} {t : Step} {v w : Nat} (valid : g.IsValid)
    (native : ∀ s ∈ r, s.IsNative g) (split : r.SplitsAt (v, w) (v, w) before t after)
    (clear : before.IsClear (v, w)) (hp : IsPair g.size (v, w)) (ψ : StateVector R g.size) :
    actAll m r.lower ψ = actAll m (before ++ after).lower ((Gate.cnot v w).act m ψ) := by
  have natives := (native_parts native split).1
  have there := clear.isPair natives hp
  have ends : t.a = (before.relabel (v, w)).1 ∧ t.far = (before.relabel (v, w)).2 :=
    Prod.ext_iff.1 split.acts_at
  have ordered := act_in_order m valid native split (by rw [ends.1, ends.2]; exact there.ne) ψ
  have moved := act_cnot_after m valid split.carries_before natives clear hp ψ
  have whole : (before ++ after).Carries :=
    carries_append.2 ⟨split.carries_before, split.carries_after⟩
  rw [ordered, ends.1, ends.2, lower_of_carries split.carries_before, moved,
    lower_of_carries split.carries_after, lower_of_carries whole, List.flatMap_append,
    actAll_append]

end Route

end CnotRouting
