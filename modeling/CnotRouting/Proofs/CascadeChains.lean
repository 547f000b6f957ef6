import CnotRouting.Proofs.CountedGates
import CnotRouting.Proofs.StepActions
import Mathlib.Data.List.Nodup

/-!
# Chains of cascades

The cascades of one control over each qubit of a chain to the next are lowered to gates that double
with each of them: the gates of the shorter chain, the CNOT along the last edge, the same gates again
and this CNOT again. All that is copied are the gates lowered so far, no more and no fewer. The whole
chain acts as the CNOT from its control to its last qubit, on strings of bits as on state vectors.
-/

namespace CnotRouting

universe u

/-! ### Strings of bits -/

/-- The string of bits after a NOT: its targets are flipped where its controls fire. -/
def Gate.flipBits {n : Nat} (g : Gate) (x : BitString n) : BitString n :=
  if g.fires x then g.targets.foldl BitString.flip x else x

@[simp] theorem Gate.flipBits_cnot {n : Nat} (c t : Nat) (x : BitString n) :
    (Gate.cnot c t).flipBits x = x.flipIf c t := by
  simp [flipBits, fires, cnot, toffoli, BitString.flipIf]

/-- A cascade flips its far qubit where its control is 1, and its middle qubit twice. -/
theorem foldl_flipBits_cascade {n a b c : Nat} (hab : a ≠ b) (hac : a ≠ c) (hbc : b ≠ c)
    (hb : b < n) (hc : c < n) (x : BitString n) :
    (Step.cascade a b c).gates.foldl (fun x k => k.flipBits x) x = x.flipIf a c := by
  simp only [Step.cascade, Step.gates, Step.far, Option.getD_some, List.foldl_cons,
    List.foldl_nil, Gate.flipBits_cnot]
  refine BitString.ext_bit fun r _ => ?_
  simp only [BitString.bit_flipIf _ hb, BitString.bit_flipIf _ hc, hab, hac, hbc, decide_false,
    decide_true, Bool.and_false, Bool.and_true, Bool.xor_false]
  cases x.bit a <;> cases x.bit b <;> by_cases hrb : r = b <;> by_cases hrc : r = c <;> simp_all

/-! ### The gates of a chain -/

/-- The cascades from `v` over each of `p 0`, `p 1`, … to the next, `n` of them. -/
def cascadeChain (v : Nat) (p : Nat → Nat) (n : Nat) : Route :=
  (List.range n).map fun i => .cascade v (p i) (p (i + 1))

/-- The gates of a chain. That of no cascades is the CNOT to its one qubit. -/
def chainGates (v : Nat) (p : Nat → Nat) : Nat → List Gate
  | 0 => [.cnot v (p 0)]
  | n + 1 =>
    let last := Gate.cnot (p n) (p (n + 1))
    chainGates v p n ++ last :: (chainGates v p n ++ [last])

theorem copiedLength_succ (n : Nat) : copiedLength (n + 1) = 2 * copiedLength n + 2 := by
  have positive : 0 < 2 ^ n := Nat.two_pow_pos n
  simp only [copiedLength_eq, Nat.pow_succ]
  omega

section

variable {v : Nat} {p : Nat → Nat} {n : Nat}

theorem cascadeChain_succ :
    cascadeChain v p (n + 1) = cascadeChain v p n ++ [.cascade v (p n) (p (n + 1))] := by
  rw [cascadeChain, List.range_succ, List.map_append]
  rfl

theorem length_chainGates (v : Nat) (p : Nat → Nat) (n : Nat) :
    (chainGates v p n).length = copiedLength n := by
  induction n with
  | zero => rfl
  | succ n ih =>
    rw [chainGates, copiedLength_succ]
    simp only [List.length_append, List.length_cons, List.length_nil, ih]
    omega

theorem mem_chainGates {k : Gate} (hk : k ∈ chainGates v p n) :
    k = .cnot v (p 0) ∨ ∃ i < n, k = .cnot (p i) (p (i + 1)) := by
  induction n with
  | zero => exact .inl (List.mem_singleton.1 hk)
  | succ n ih =>
    simp only [chainGates, List.mem_append, List.mem_cons, List.not_mem_nil, or_false] at hk
    have earlier : k ∈ chainGates v p n →
        k = .cnot v (p 0) ∨ ∃ i < n + 1, k = .cnot (p i) (p (i + 1)) :=
      fun hk => (ih hk).imp_right fun ⟨i, hi, heq⟩ => ⟨i, Nat.lt_succ_of_lt hi, heq⟩
    rcases hk with hk | rfl | hk | rfl
    · exact earlier hk
    · exact .inr ⟨n, Nat.lt_succ_self n, rfl⟩
    · exact earlier hk
    · exact .inr ⟨n, Nat.lt_succ_self n, rfl⟩

/-- After `n` cascades the gates are as long as what the next one copies, so it copies them all. -/
theorem foldl_lowerStep_cascadeChain (positive : 0 < n) :
    (cascadeChain v p n).foldl Route.lowerStep ([], 0) = (chainGates v p n, n) := by
  induction n, positive using Nat.le_induction with
  | base => rfl
  | succ n positive ih =>
    have whole : (chainGates v p n).length - copiedLength n = 0 := by
      rw [length_chainGates, Nat.sub_self]
    have later : ¬ n = 0 := Nat.ne_of_gt positive
    rw [cascadeChain_succ, List.foldl_append, ih, List.foldl_cons, List.foldl_nil]
    simp only [Route.lowerStep, Step.cascade, if_neg later, whole, List.drop_zero]
    rfl

theorem lower_cascadeChain (positive : 0 < n) :
    (cascadeChain v p n).lower = chainGates v p n := by
  rw [Route.lower, foldl_lowerStep_cascadeChain positive]

theorem foldl_countStep_cascadeChain (positive : 0 < n) :
    (cascadeChain v p n).foldl Route.countStep (0, 0) = (copiedLength n, n) := by
  have counted := Route.foldl_countStep_length (cascadeChain v p n) [] 0
  rw [foldl_lowerStep_cascadeChain positive, length_chainGates] at counted
  exact counted

/-- Whatever gates do to a state, if every cascade does what the CNOT to its far qubit does, so does
the chain. -/
theorem foldl_chainGates {α : Type*} {act : α → Gate → α}
    (each : ∀ i < n, ∀ a, (Step.cascade v (p i) (p (i + 1))).gates.foldl act a =
      act a (.cnot v (p (i + 1)))) (a : α) :
    (chainGates v p n).foldl act a = act a (.cnot v (p n)) := by
  induction n generalizing a with
  | zero => rfl
  | succ n ih =>
    have shorter := ih fun i hi => each i (Nat.lt_succ_of_lt hi)
    simp only [chainGates, List.foldl_append, List.foldl_cons, List.foldl_nil, shorter]
    exact each n (Nat.lt_succ_self n) a

end

/-- The chain of `n` cascades from `v` over distinct qubits is lowered to as many gates as are
counted for it, all of them CNOTs along its edges. They act as the CNOT from `v` to the last qubit. -/
theorem cascade_chain_acts_as_cnot {n : Nat} (positive : 0 < n) {v : Nat} {p : Nat → Nat}
    (distinct : (v :: (List.range (n + 1)).map p).Nodup) :
    let chain := cascadeChain v p n
    chain.lower.length = 2 ^ n + 2 ^ (n + 1) - 2 ∧
      chain.gateCount = 2 ^ n + 2 ^ (n + 1) - 2 ∧
      (∀ k ∈ chain.lower, k = .cnot v (p 0) ∨ ∃ i < n, k = .cnot (p i) (p (i + 1))) ∧
      ∀ width, (∀ q ∈ v :: (List.range (n + 1)).map p, q < width) →
        (∀ x : BitString width,
          chain.lower.foldl (fun x k => k.flipBits x) x = (Gate.cnot v (p n)).flipBits x) ∧
        ∀ {R : Type u} [CommRing R] (m : GateMatrices R) (ψ : StateVector R width),
          actAll m chain.lower ψ = (Gate.cnot v (p n)).act m ψ := by
  intro chain
  have lowered : chain.lower = chainGates v p n := lower_cascadeChain positive
  obtain ⟨fresh, nodup⟩ := List.nodup_cons.1 distinct
  have listed : ∀ i ≤ n, p i ∈ (List.range (n + 1)).map p := fun i hi =>
    List.mem_map_of_mem (List.mem_range.2 (Nat.lt_succ_of_le hi))
  have hv : ∀ i ≤ n, v ≠ p i := fun i hi heq => fresh (heq ▸ listed i hi)
  have hp : ∀ i < n, p i ≠ p (i + 1) := by
    intro i hi heq
    have same := List.inj_on_of_nodup_map nodup (List.mem_range.2 (by omega))
      (List.mem_range.2 (by omega)) heq
    omega
  refine ⟨?_, ?_, ?_, ?_⟩
  · rw [lowered, length_chainGates, copiedLength_eq]
  · rw [Route.gateCount, foldl_countStep_cascadeChain positive, copiedLength_eq]
  · rw [lowered]
    exact fun k hk => mem_chainGates hk
  · intro width inside
    have lt : ∀ i ≤ n, p i < width := fun i hi => inside _ (List.mem_cons_of_mem v (listed i hi))
    have hvw : v < width := inside v List.mem_cons_self
    rw [lowered]
    constructor
    · refine foldl_chainGates fun i hi x => ?_
      rw [foldl_flipBits_cascade (hv i hi.le) (hv (i + 1) hi) (hp i hi) (lt i hi.le) (lt (i + 1) hi),
        Gate.flipBits_cnot]
    · intro R _ m
      refine foldl_chainGates fun i hi ψ => ?_
      have far : p (i + 1) ≠ v ∧ p (i + 1) ≠ p i ∧ p (i + 1) < width :=
        ⟨(hv (i + 1) hi).symm, (hp i hi).symm, lt (i + 1) hi⟩
      exact act_terminal m (s := .cascade v (p i) (p (i + 1))) rfl (hv i hi.le) hvw (lt i hi.le)
        (fun other => absurd rfl other) (fun _ => far) ψ

/-- Three cascades are lowered to 22 gates. -/
theorem cascade_chain_acts_as_cnot_three :
    let chain := cascadeChain 0 (· + 1) 3
    chain.lower.length = 22 ∧ ∀ x : BitString 5,
      chain.lower.foldl (fun x k => k.flipBits x) x = (Gate.cnot 0 4).flipBits x := by
  have distinct : (0 :: (List.range 4).map (· + 1)).Nodup := by decide
  obtain ⟨length, -, -, acts⟩ := cascade_chain_acts_as_cnot.{0} (n := 3) (by decide) distinct
  exact ⟨length, (acts 5 (by decide)).1⟩

end CnotRouting
