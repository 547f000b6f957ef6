import CnotRouting.Proofs.RouteActions
import Mathlib.Data.Finset.Card
import Mathlib.Data.ZMod.Basic

/-!
# Joined routes

A chain of two edges is followed by a forward part of two steps: the control is carried over the
first edge, or the target against the second one, and the CNOT is applied on the other. These are
the forward parts that are joined to a cascade. The cascade acts as the completed forward part does,
without a Hadamard, along the same two edges and at a quarter of the cost.
-/

namespace CnotRouting

universe u

/-- The directed edges along which a run of gates drives its CNOTs. -/
def drivenEdges (gates : List Gate) : Set (Nat × Nat) := {e | Gate.cnot e.1 e.2 ∈ gates}

@[simp] theorem drivenEdges_nil : drivenEdges [] = ∅ := by
  simp [drivenEdges]

@[simp] theorem drivenEdges_cnot_cons (c t : Nat) (gates : List Gate) :
    drivenEdges (.cnot c t :: gates) = insert (c, t) (drivenEdges gates) := by
  ext ⟨a, b⟩
  simp [drivenEdges, Gate.cnot, Gate.toffoli, and_comm]

@[simp] theorem drivenEdges_hadamard_cons (q : Nat) (gates : List Gate) :
    drivenEdges (.hadamard q :: gates) = drivenEdges gates := by
  ext ⟨a, b⟩
  simp [drivenEdges, Gate.cnot, Gate.toffoli, Gate.hadamard]

/-- A step that carries an end of the CNOT, the CNOT where the ends then are, and the step back act
as the CNOT at home. -/
theorem act_enclosed {R : Type u} [CommRing R] {n : Nat} (m : GateMatrices R) {s : Step}
    {v w : Nat} (carries : s.kind.isTerminal = false) (clear : s.IsClear (v, w)) (hab : s.a ≠ s.b)
    (ha : s.a < n) (hb : s.b < n) (hp : IsPair n (v, w)) (ψ : StateVector R n) :
    actAll m (s.gates ++ .cnot (s.relabel (v, w)).1 (s.relabel (v, w)).2 :: s.inverse.gates) ψ =
      (Gate.cnot v w).act m ψ := by
  rw [actAll_append, actAll_cons, act_cnot_after_step m carries clear hab ha hb hp,
    act_step_inverse m carries hab ha hb]

namespace Route

/-- The forward parts over the chain from `v` over `i` to `w`. A third operand has no meaning for
their steps. -/
inductive FollowsChain (v i w : Nat) : Route → Prop
  | control (x y : Option Nat) :
      FollowsChain v i w [⟨.move .control .along, v, i, x⟩, ⟨.native, i, w, y⟩]
  | target (x y : Option Nat) :
      FollowsChain v i w [⟨.move .target .against, w, i, x⟩, ⟨.native, v, i, y⟩]

/-- The qubits that the first two operands of the steps name. -/
def qubits (r : Route) : Finset Nat := (r.flatMap fun s => [s.a, s.b]).toFinset

namespace FollowsChain

variable {r : Route} {v i w : Nat} (h : r.FollowsChain v i w)
include h

theorem joined_eq : r.joined = [.cascade v i w] := by
  cases h <;> simp [joined]

theorem qubits_eq : r.qubits = {v, i, w} := by
  cases h with
  | control x y => simp [qubits]
  | target x y =>
    ext q
    simp only [qubits, List.flatMap_cons, List.flatMap_nil, List.append_nil, List.mem_toFinset,
      List.cons_append, List.nil_append, List.mem_cons, List.not_mem_nil, or_false,
      Finset.mem_insert, Finset.mem_singleton]
    tauto

theorem completedCost_eq : r.completedCost = 12 := by
  cases h <;> rfl

theorem completedCost_joined : r.joined.completedCost = 3 := by
  rw [h.joined_eq]
  rfl

theorem drivenEdges_joined : drivenEdges r.joined.lower = {(v, i), (i, w)} := by
  have gates : lower [.cascade v i w] = [.cnot v i, .cnot i w, .cnot v i, .cnot i w] := rfl
  rw [h.joined_eq, gates]
  simp

/-- The completed forward part drives its CNOTs along the edges of the chain too. -/
theorem drivenEdges_completed : drivenEdges r.completed.lower = {(v, i), (i, w)} := by
  cases h with
  | control x y =>
    have pair : ({(i, w), (v, i)} : Set (Nat × Nat)) = {(v, i), (i, w)} := Set.pair_comm _ _
    simpa [completed, lower, lowerStep, Step.inverse, StepKind.inverse, Step.gates] using pair
  | target x y =>
    simp [completed, lower, lowerStep, Step.inverse, StepKind.inverse, Step.gates]

section Actions

variable {R : Type u} [CommRing R] {n : Nat} (m : GateMatrices R) (hvi : v ≠ i) (hiw : i ≠ w)
  (hvw : v ≠ w) (hv : v < n) (hi : i < n) (hw : w < n)
include hvi hiw hvw hv hi hw

theorem act_completed (ψ : StateVector R n) :
    actAll m r.completed.lower ψ = (Gate.cnot v w).act m ψ := by
  have hp : IsPair n (v, w) := ⟨hvw, hv, hw⟩
  cases h with
  | control x y =>
    let s : Step := ⟨.move .control .along, v, i, x⟩
    have clear : s.IsClear (v, w) := ⟨hvi, hvw.symm, hiw.symm⟩
    have moved : s.relabel (v, w) = (i, w) := by simp [s, Step.relabel, Step.carry]
    have enclosed := act_enclosed m (s := s) rfl clear hvi hv hi hp ψ
    rw [moved] at enclosed
    exact enclosed
  | target x y =>
    let s : Step := ⟨.move .target .against, w, i, x⟩
    have clear : s.IsClear (v, w) := ⟨hiw.symm, hvw, hvi⟩
    have moved : s.relabel (v, w) = (v, i) := by simp [s, Step.relabel, Step.carry]
    have enclosed := act_enclosed m (s := s) rfl clear hiw.symm hw hi hp ψ
    rw [moved] at enclosed
    exact enclosed

theorem act_joined (ψ : StateVector R n) :
    actAll m r.joined.lower ψ = (Gate.cnot v w).act m ψ := by
  rw [h.joined_eq]
  exact act_terminal m (s := .cascade v i w) rfl hvi hv hi (fun other => absurd rfl other)
    (fun _ => ⟨hvw.symm, hiw.symm, hw⟩) ψ

end Actions

end FollowsChain

/-- The forward parts that are changed when they are joined are those over a chain. -/
theorem joined_ne_iff {r : Route} : r.joined ≠ r ↔ ∃ v i w, r.FollowsChain v i w := by
  constructor
  · intro changed
    unfold joined at changed
    split at changed
    · rename_i a b x a' b' y
      split at changed
      · rename_i middle
        subst middle
        exact ⟨a, b, b', .control x y⟩
      · exact absurd rfl changed
    · rename_i a b x a' b' y
      split at changed
      · rename_i middle
        subst middle
        exact ⟨a', b, a, .target x y⟩
      · exact absurd rfl changed
    · exact absurd rfl changed
  · rintro ⟨v, i, w, h⟩ same
    have short := congrArg List.length (same.symm.trans h.joined_eq)
    cases h <;> simp at short

end Route

/-- A forward part that is changed when it is joined, and whose steps name three distinct qubits, is
one over a chain of these qubits. Joined, it acts as it does when it is completed, namely as the
CNOT from the first qubit of the chain to the last. Both drive their CNOTs along the edges of the
chain, and the cascade costs less. -/
theorem joined_acts_as_completed {r : Route} (changed : r.joined ≠ r)
    (distinct : r.qubits.card = 3) :
    ∃ v i w, r.FollowsChain v i w ∧ r.qubits = {v, i, w} ∧ r.joined = [.cascade v i w] ∧
      drivenEdges r.joined.lower = drivenEdges r.completed.lower ∧
      drivenEdges r.completed.lower = {(v, i), (i, w)} ∧
      r.joined.completedCost < r.completedCost ∧
      ∀ {R : Type u} [CommRing R] (m : GateMatrices R) (n : Nat), (∀ q ∈ r.qubits, q < n) →
        ∀ ψ : StateVector R n,
          actAll m r.joined.lower ψ = actAll m r.completed.lower ψ ∧
          actAll m r.completed.lower ψ = (Gate.cnot v w).act m ψ := by
  obtain ⟨v, i, w, chain⟩ := Route.joined_ne_iff.1 changed
  have qubits := chain.qubits_eq
  obtain ⟨hvi, hvw, hiw⟩ := Finset.card_triple_eq_three_iff.1 (qubits ▸ distinct)
  refine ⟨v, i, w, chain, qubits, chain.joined_eq, ?_, chain.drivenEdges_completed, ?_, ?_⟩
  · rw [chain.drivenEdges_joined, chain.drivenEdges_completed]
  · rw [chain.completedCost_joined, chain.completedCost_eq]
    decide
  · intro R _ m n inside ψ
    have hv : v < n := inside v (by simp [qubits])
    have hi : i < n := inside i (by simp [qubits])
    have hw : w < n := inside w (by simp [qubits])
    have completed := chain.act_completed m hvi hiw hvw hv hi hw ψ
    exact ⟨(chain.act_joined m hvi hiw hvw hv hi hw ψ).trans completed.symm, completed⟩

/-- The target is carried from 2 to 1, against the edge from there. -/
theorem joined_acts_as_completed_target :
    let r : Route := [⟨.move .target .against, 2, 1, none⟩, ⟨.native, 0, 1, none⟩]
    r.joined ≠ r ∧ r.qubits.card = 3 ∧ r.joined.completedCost < r.completedCost ∧
      drivenEdges r.joined.lower = drivenEdges r.completed.lower ∧
      ∀ (m : GateMatrices (ZMod 7)) (ψ : StateVector (ZMod 7) 3),
        actAll m r.joined.lower ψ = actAll m r.completed.lower ψ := by
  intro r
  have changed : r.joined ≠ r := by decide
  have distinct : r.qubits.card = 3 := by decide
  have inside : ∀ q ∈ r.qubits, q < 3 := by decide
  obtain ⟨v, i, w, -, -, -, edges, -, cheaper, acts⟩ := joined_acts_as_completed changed distinct
  exact ⟨changed, distinct, cheaper, edges, fun m ψ => (acts m 3 inside ψ).1⟩

end CnotRouting
