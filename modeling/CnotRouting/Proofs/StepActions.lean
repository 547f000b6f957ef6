import CnotRouting.Proofs.GateActions
import CnotRouting.RouteLowering

/-!
# The action of steps on state vectors

A step that carries an end of a CNOT from `a` to `b` acts as two CNOTs between these lines, with a
Hadamard on `a` after them if the edge points the helpful way. If the CNOT is applied after such a
step, at the place where the step carries its ends, the effect is that of the CNOT applied before
it. This needs a clear way: no end stands on the line the step leads to, and the end it does not
carry stands on neither line.
-/

namespace CnotRouting

universe u

variable {R : Type u} [CommRing R] {n : Nat} (m : GateMatrices R)

/-- A run of gates that are their own inverses is undone by the same gates in reverse order. -/
theorem actAll_reverse {gates : List Gate} (h : ∀ g ∈ gates, ∀ ψ : StateVector R n,
    g.act m (g.act m ψ) = ψ) (ψ : StateVector R n) :
    actAll m gates.reverse (actAll m gates ψ) = ψ := by
  induction gates generalizing ψ with
  | nil => rfl
  | cons g gates ih =>
    have tail := ih (fun g' hg' => h g' (List.mem_cons_of_mem g hg')) (g.act m ψ)
    simp only [List.reverse_cons, actAll_append, actAll_cons, actAll_nil]
    rw [tail]
    exact h g List.mem_cons_self ψ

/-- A gate that commutes with each gate of a run commutes with the run. -/
theorem actAll_comm {gates : List Gate} {k : Gate} (h : ∀ g ∈ gates, ∀ ψ : StateVector R n,
    k.act m (g.act m ψ) = g.act m (k.act m ψ)) (ψ : StateVector R n) :
    k.act m (actAll m gates ψ) = actAll m gates (k.act m ψ) := by
  induction gates generalizing ψ with
  | nil => rfl
  | cons g gates ih =>
    rw [actAll_cons, actAll_cons, ih (fun g' hg' => h g' (List.mem_cons_of_mem g hg')),
      h g List.mem_cons_self]

/-- What a run of gates turns into another gate, the run in reverse turns back. -/
theorem reverse_turns_back {gates : List Gate} {k k' : Gate}
    (inverse : ∀ g ∈ gates, ∀ ψ : StateVector R n, g.act m (g.act m ψ) = ψ)
    (turned : ∀ ψ : StateVector R n, k'.act m (actAll m gates ψ) = actAll m gates (k.act m ψ))
    (ψ : StateVector R n) :
    k.act m (actAll m gates.reverse ψ) = actAll m gates.reverse (k'.act m ψ) := by
  have inverse' : ∀ g ∈ gates.reverse, ∀ ψ : StateVector R n, g.act m (g.act m ψ) = ψ :=
    fun g hg => inverse g (List.mem_reverse.1 hg)
  have back := actAll_reverse m inverse' ψ
  rw [List.reverse_reverse] at back
  rw [← actAll_reverse m inverse (k.act m (actAll m gates.reverse ψ)), ← turned, back]

/-- The two CNOTs by which an end is carried from `a` to `b`, and the Hadamard that an edge in the
helpful direction leaves on `a`. -/
def carryGates : Endpoint → Heading → (a b : Nat) → List Gate
  | .control, .along, a, b => [.cnot b a, .cnot a b]
  | .control, .against, a, b => [.cnot b a, .cnot a b, .hadamard a]
  | .target, .along, a, b => [.cnot a b, .cnot b a, .hadamard a]
  | .target, .against, a, b => [.cnot a b, .cnot b a]

theorem mem_carryGates {e : Endpoint} {h : Heading} {a b : Nat} {g : Gate}
    (hg : g ∈ carryGates e h a b) : g = .cnot a b ∨ g = .cnot b a ∨ g = .hadamard a := by
  cases e <;> cases h <;> simp only [carryGates, List.mem_cons, List.not_mem_nil, or_false] at hg <;>
    tauto

section

variable {a b : Nat}

/-- The gates of a carrying step undo themselves one by one. -/
theorem carryGates_involutive (hab : a ≠ b) (ha : a < n) (hb : b < n) {e : Endpoint} {h : Heading}
    {g : Gate} (hg : g ∈ carryGates e h a b) (ψ : StateVector R n) : g.act m (g.act m ψ) = ψ := by
  rcases mem_carryGates hg with rfl | rfl | rfl
  · exact Gate.cnot_cnot m hab hb ψ
  · exact Gate.cnot_cnot m hab.symm ha ψ
  · exact Gate.hadamard_hadamard m ha ψ

/-- Hadamards on both lines turn a CNOT around; without the last of them on `a`, it is left there. -/
theorem half_turned_cnot (ha : a < n) {g g' : Gate}
    (turned : ∀ ψ : StateVector R n,
      actAll m [.hadamard a, .hadamard b, g, .hadamard a, .hadamard b] ψ = g'.act m ψ)
    (ψ : StateVector R n) :
    actAll m [.hadamard a, .hadamard b, g, .hadamard b] ψ = actAll m [g', .hadamard a] ψ := by
  have h := turned ψ
  simp only [actAll_cons, actAll_nil] at h ⊢
  rw [← h, Gate.hadamard_comm m a b, Gate.hadamard_hadamard m ha]

theorem half_turned_cnot_back (ha : a < n) {g g' : Gate}
    (turned : ∀ ψ : StateVector R n,
      actAll m [.hadamard a, .hadamard b, g, .hadamard a, .hadamard b] ψ = g'.act m ψ)
    (ψ : StateVector R n) :
    actAll m [.hadamard b, g, .hadamard a, .hadamard b] ψ = actAll m [.hadamard a, g'] ψ := by
  have h := turned ((Gate.hadamard a).act m ψ)
  simp only [actAll_cons, actAll_nil, Gate.hadamard_hadamard m ha] at h ⊢
  exact h

/-- Hadamards on both lines, in the order of the other line first. -/
theorem turned_cnot_symm (hab : a ≠ b) (ha : a < n) (hb : b < n) (ψ : StateVector R n) :
    actAll m [.hadamard a, .hadamard b, .cnot b a, .hadamard a, .hadamard b] ψ =
      (Gate.cnot a b).act m ψ := by
  rw [← Gate.turned_cnot m hab.symm hb ha ψ]
  simp only [actAll_cons, actAll_nil, Gate.hadamard_comm m a b]

/-- A move acts as its two CNOTs and the Hadamard left behind. -/
theorem act_move (hab : a ≠ b) (ha : a < n) (hb : b < n) (e : Endpoint) (h : Heading)
    (c : Option Nat) (ψ : StateVector R n) :
    actAll m (Step.gates ⟨.move e h, a, b, c⟩) ψ = actAll m (carryGates e h a b) ψ := by
  have ab := Gate.turned_cnot (n := n) m hab ha hb
  have ba := turned_cnot_symm (n := n) m hab ha hb
  cases e with
  | control =>
    cases h with
    | along => exact congrArg ((Gate.cnot a b).act m) (ab ψ)
    | against => exact half_turned_cnot m ha ba ((Gate.cnot b a).act m ψ)
  | target =>
    cases h with
    | along => exact half_turned_cnot m ha ab ((Gate.cnot a b).act m ψ)
    | against => exact congrArg ((Gate.cnot b a).act m) (ba ψ)

/-- A step back acts as the gates of the move in reverse order. -/
theorem act_undo (hab : a ≠ b) (ha : a < n) (hb : b < n) (e : Endpoint) (h : Heading)
    (c : Option Nat) (ψ : StateVector R n) :
    actAll m (Step.gates ⟨.undo e h, a, b, c⟩) ψ = actAll m (carryGates e h a b).reverse ψ := by
  have ab := Gate.turned_cnot (n := n) m hab ha hb
  have ba := turned_cnot_symm (n := n) m hab ha hb
  cases e with
  | control =>
    cases h with
    | along => exact ab ((Gate.cnot a b).act m ψ)
    | against => exact congrArg ((Gate.cnot b a).act m) (half_turned_cnot_back m ha ba ψ)
  | target =>
    cases h with
    | along => exact congrArg ((Gate.cnot a b).act m) (half_turned_cnot_back m ha ab ψ)
    | against => exact ba ((Gate.cnot b a).act m ψ)

/-- The native step, the flip and the cascade act as the CNOT between their far operands. -/
theorem act_terminal {s : Step} (hs : s.kind.isTerminal = true) (hab : s.a ≠ s.b) (ha : s.a < n)
    (hb : s.b < n) (plain : s.kind ≠ .cascade → s.c = none)
    (chain : s.kind = .cascade → s.far ≠ s.a ∧ s.far ≠ s.b ∧ s.far < n) (ψ : StateVector R n) :
    actAll m s.gates ψ = (Gate.cnot s.a s.far).act m ψ := by
  obtain ⟨kind, a, b, c⟩ := s
  cases kind with
  | move e h => simp [StepKind.isTerminal] at hs
  | undo e h => simp [StepKind.isTerminal] at hs
  | native =>
    obtain rfl : c = none := plain (by simp)
    rfl
  | flip =>
    obtain rfl : c = none := plain (by simp)
    exact turned_cnot_symm m hab ha hb ψ
  | cascade =>
    obtain ⟨hfa, hfb, hf⟩ := chain rfl
    generalize hfar : (⟨.cascade, a, b, c⟩ : Step).far = f at hfa hfb hf ⊢
    simp only [Step.gates, hfar, actAll_cons, actAll_nil]
    funext x
    simp only [Gate.act_cnot]
    congr 1
    refine BitString.ext_bit fun r _ => ?_
    simp only at hab hb hfa hfb
    simp only [BitString.bit_flipIf _ hb, BitString.bit_flipIf _ hf, hab, hfa.symm, hfb.symm,
      decide_false, decide_true, Bool.and_false, Bool.and_true, Bool.xor_false]
    cases x.bit a <;> cases x.bit b <;> by_cases hrb : r = b <;> by_cases hrf : r = f <;>
      simp_all

end

/-! ### CNOTs around carrying steps -/

section

variable {a b : Nat}

/-- Carrying the control: the CNOT from `b` afterwards is the CNOT from `a` before. -/
theorem carry_control {w : Nat} (hab : a ≠ b) (hwa : w ≠ a) (hwb : w ≠ b) (ha : a < n) (hb : b < n)
    (hw : w < n) (h : Heading) (ψ : StateVector R n) :
    (Gate.cnot b w).act m (actAll m (carryGates .control h a b) ψ) =
      actAll m (carryGates .control h a b) ((Gate.cnot a w).act m ψ) := by
  have swapped : (Gate.cnot b w).act m (actAll m [.cnot b a, .cnot a b] ψ) =
      actAll m [.cnot b a, .cnot a b] ((Gate.cnot a w).act m ψ) := by
    have haw := hwa.symm
    have hbw := hwb.symm
    funext x
    simp only [actAll_cons, actAll_nil, Gate.act_cnot]
    congr 1
    refine BitString.ext_bit fun r _ => ?_
    simp only [BitString.bit_flipIf _ ha, BitString.bit_flipIf _ hb, BitString.bit_flipIf _ hw]
    cases x.bit a <;> cases x.bit b <;> by_cases hra : r = a <;> by_cases hrb : r = b <;> simp_all
  cases h with
  | along => exact swapped
  | against =>
    have split : ∀ φ : StateVector R n, actAll m (carryGates .control .against a b) φ =
      (Gate.hadamard a).act m (actAll m [.cnot b a, .cnot a b] φ) := fun _ => rfl
    rw [split, split, ← swapped, Gate.hadamard_cnot_comm m hab hwa.symm]

/-- Carrying the target: the CNOT to `b` afterwards is the CNOT to `a` before. -/
theorem carry_target {v : Nat} (hab : a ≠ b) (hva : v ≠ a) (hvb : v ≠ b) (ha : a < n) (hb : b < n)
    (h : Heading) (ψ : StateVector R n) :
    (Gate.cnot v b).act m (actAll m (carryGates .target h a b) ψ) =
      actAll m (carryGates .target h a b) ((Gate.cnot v a).act m ψ) := by
  have swapped : (Gate.cnot v b).act m (actAll m [.cnot a b, .cnot b a] ψ) =
      actAll m [.cnot a b, .cnot b a] ((Gate.cnot v a).act m ψ) := by
    funext x
    simp only [actAll_cons, actAll_nil, Gate.act_cnot]
    congr 1
    refine BitString.ext_bit fun r _ => ?_
    simp only [BitString.bit_flipIf _ ha, BitString.bit_flipIf _ hb]
    cases x.bit a <;> cases x.bit b <;> by_cases hra : r = a <;> by_cases hrb : r = b <;> simp_all
  cases h with
  | against => exact swapped
  | along =>
    have split : ∀ φ : StateVector R n, actAll m (carryGates .target .along a b) φ =
      (Gate.hadamard a).act m (actAll m [.cnot a b, .cnot b a] φ) := fun _ => rfl
    rw [split, split, ← swapped, Gate.hadamard_cnot_comm m hva.symm hab]

/-- A CNOT on other lines commutes with a carrying step. -/
theorem carry_aside {v w : Nat} (hva : v ≠ a) (hvb : v ≠ b) (hwa : w ≠ a) (hwb : w ≠ b) (ha : a < n)
    (hb : b < n) (hw : w < n) (e : Endpoint) (h : Heading) (ψ : StateVector R n) :
    (Gate.cnot v w).act m (actAll m (carryGates e h a b) ψ) =
      actAll m (carryGates e h a b) ((Gate.cnot v w).act m ψ) := by
  refine actAll_comm m (fun g hg φ => ?_) ψ
  rcases mem_carryGates hg with rfl | rfl | rfl
  · exact Gate.cnot_comm m hvb hwa.symm hw hb φ
  · exact Gate.cnot_comm m hva hwb.symm hw ha φ
  · exact (Gate.hadamard_cnot_comm m hva.symm hwa.symm φ).symm

end

end CnotRouting
