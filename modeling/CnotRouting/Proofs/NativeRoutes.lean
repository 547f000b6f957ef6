import CnotRouting.Proofs.RouteParts
import CnotRouting.Proofs.ValidGraphs
import Mathlib.Tactic.Tauto

/-!
# Native routes

A step is native to a coupling graph if all its edges are there. A route serves a pair of qubits if
its steps are native and it realises the CNOT of the pair. Every CNOT that such a route is lowered
to then runs along an edge of the graph, for the edges a step lists and the gates it is made of
agree.
-/

namespace CnotRouting

/-- Whether a step uses edges of the graph only, and has a third operand exactly if it is a
cascade. -/
structure Step.IsNative (g : CouplingGraph) (s : Step) : Prop where
  edges : ∀ e ∈ s.edges, g.hasEdge e.1 e.2 = true
  operands : s.c.isSome = true ↔ s.kind = .cascade

namespace Step

variable {g : CouplingGraph} {s : Step}

theorem IsNative.inverse (h : s.IsNative g) : s.inverse.IsNative g := by
  refine ⟨by simpa using h.edges, ?_⟩
  have := h.operands
  rcases s with ⟨_ | _ | _ | _ | _, a, b, c⟩ <;> simpa [Step.inverse, StepKind.inverse] using this

/-- One of the edges of a step joins its first two operands. -/
theorem IsNative.joined (h : s.IsNative g) :
    g.hasEdge s.a s.b = true ∨ g.hasEdge s.b s.a = true := by
  have edges := h.edges
  rcases s with ⟨⟨_, _ | _⟩ | ⟨_, _ | _⟩ | _ | _ | _, a, b, c⟩ <;>
    simp only [Step.edges, List.mem_cons, List.not_mem_nil, or_false, forall_eq,
      forall_eq_or_imp] at edges
  all_goals tauto

theorem IsNative.lt (h : s.IsNative g) : s.a < g.size ∧ s.b < g.size := by
  rcases h.joined with hab | hba
  · exact g.lt_size_of_hasEdge hab
  · exact (g.lt_size_of_hasEdge hba).symm

theorem IsNative.ne (h : s.IsNative g) (valid : g.IsValid) : s.a ≠ s.b := by
  rcases h.joined with hab | hba
  · exact valid.ne hab
  · exact (valid.ne hba).symm

/-- Only a cascade has a third operand. -/
theorem IsNative.third_eq_none (h : s.IsNative g) (hk : s.kind ≠ .cascade) : s.c = none := by
  cases hc : s.c with
  | none => rfl
  | some c => exact absurd (h.operands.1 (by simp [hc])) hk

/-- The last edge of a cascade leads to its far operand. -/
theorem IsNative.hasEdge_far (h : s.IsNative g) (hk : s.kind = .cascade) :
    g.hasEdge s.b s.far = true := by
  obtain ⟨c, hc⟩ := Option.isSome_iff_exists.1 (h.operands.2 hk)
  simpa [far, hc] using h.edges (s.b, c) (by simp [Step.edges, hk, hc])

/-- Every gate of a native step is a Hadamard on an operand or a CNOT along one of its edges. -/
theorem IsNative.mem_gates (h : s.IsNative g) {k : Gate} (hk : k ∈ s.gates) :
    k = .hadamard s.a ∨ k = .hadamard s.b ∨ ∃ e ∈ s.edges, k = .cnot e.1 e.2 := by
  obtain ⟨-, operands⟩ := h
  rcases s with ⟨⟨_ | _, _ | _⟩ | ⟨_ | _, _ | _⟩ | _ | _ | _, a, b, _ | c⟩ <;>
    simp [gates, Step.edges, Step.far] at hk operands ⊢
  all_goals tauto

end Step

namespace Route

/-- Whether a route can stand in a table of the graph for the CNOT from `v` to `w`. -/
structure Serves (r : Route) (g : CouplingGraph) (v w : Nat) : Prop where
  native : ∀ s ∈ r, s.IsNative g
  realizes : r.realizes v w = true

/-- A route that serves a pair is lowered to Hadamards on qubits of the graph and CNOTs along its
edges. -/
theorem Serves.mem_lower {r : Route} {g : CouplingGraph} {v w : Nat} (h : r.Serves g v w) {k : Gate}
    (hk : k ∈ r.lower) :
    (∃ q < g.size, k = .hadamard q) ∨ ∃ c t, g.hasEdge c t = true ∧ k = .cnot c t := by
  obtain ⟨before, t, after, split⟩ := realizes_iff_splitsAt.1 h.realizes
  obtain ⟨s, hs, hks⟩ := mem_lower_of_splitsAt split hk
  have native := h.native s hs
  rcases native.mem_gates hks with rfl | rfl | ⟨e, he, rfl⟩
  · exact .inl ⟨s.a, native.lt.1, rfl⟩
  · exact .inl ⟨s.b, native.lt.2, rfl⟩
  · exact .inr ⟨e.1, e.2, native.edges e he, rfl⟩

end Route

end CnotRouting
