import CnotRouting.Proofs.ExpandedCircuits
import CnotRouting.Proofs.WrappedTables

/-!
# Circuits of native gates

The cheapest route of an edge is the native CNOT along it. On a device that was built from a
graph, a circuit of native gates on all its qubits is therefore its own expansion. Every expansion
is such a circuit, so that it is not changed by another one, and no other circuits are their own
expansions.
-/

namespace CnotRouting

namespace CouplingGraph

variable {g : CouplingGraph} {v w : Nat}

/-- The search stops at an edge at once, and a native CNOT is cheaper than a flipped one. -/
theorem cheapestForwardPart?_of_hasEdge (edge : g.hasEdge v w = true) :
    g.cheapestForwardPart? .stopAtEdge v w = some [⟨.native, v, w, none⟩] := by
  have parts : g.forwardParts .stopAtEdge v w = (g.terminalSteps v w).map ([·]) := by
    rw [forwardParts, forwardPartsFrom_eq, if_pos]
    simp [terminalSteps, edge]
  rw [cheapestForwardPart?_eq, parts, terminalSteps, if_pos edge]
  by_cases back : g.hasEdge w v = true
  · rw [if_pos back]
    rfl
  · rw [if_neg back]
    rfl

theorem cheapestRoute_of_hasEdge (edge : g.hasEdge v w = true) (hvw : v ≠ w) :
    g.cheapestRoute v w = .ok [⟨.native, v, w, none⟩] := by
  obtain ⟨hv, hw⟩ := lt_size_of_hasEdge edge
  have inside : ¬(g.size ≤ v ∨ g.size ≤ w) := by omega
  rw [cheapestRoute, if_neg inside, if_neg hvw, cheapestForwardPart?_of_hasEdge edge]
  rfl

end CouplingGraph

/-- The hardware offers the supported gates, of the CNOTs those that fire on 1 along an edge. -/
theorem Gate.compliesWith_iff {g : CouplingGraph} {k : Gate} : k.CompliesWith g ↔
    k.IsSupported ∧ ∀ control t, k = .toffoli [control] t →
      control.positive = true ∧ g.hasEdge control.line t = true := by
  constructor
  · intro complies
    cases complies with
    | plain hkind => exact ⟨.plain hkind, by simp [toffoli]⟩
    | @cnot c t edge =>
      refine ⟨.cnot ⟨c, true⟩ t, ?_⟩
      intro control target same
      obtain ⟨rfl, rfl⟩ : t = target ∧ ⟨c, true⟩ = control := by
        simpa [Gate.cnot, toffoli] using same
      exact ⟨rfl, edge⟩
  · rintro ⟨supported, native⟩
    cases supported with
    | plain hkind => exact .plain hkind
    | cnot control t =>
      obtain ⟨line, positive⟩ := control
      obtain ⟨rfl, edge⟩ := native _ _ rfl
      exact .cnot edge

namespace Device

variable {g : CouplingGraph} {d : Device}

theorem route_of_hasEdge (h : ofGraph g = .ok d) {v w : Nat} (edge : d.graph.hasEdge v w = true)
    (hvw : v ≠ w) : d.table.route v w = .ok [⟨.native, v, w, none⟩] := by
  obtain ⟨rs, rfl, hrs⟩ := ofGraph_eq_ok h
  obtain ⟨hv, hw⟩ := CouplingGraph.lt_size_of_hasEdge edge
  obtain ⟨r, hr, cheapest⟩ := RouteTable.route_ofRoutes hrs hv hw
  have single := CouplingGraph.cheapestRoute_of_hasEdge edge hvw
  obtain rfl := Except.ok.inj (cheapest.symm.trans single)
  exact hr

/-- A native gate is its own expansion. -/
theorem expands_of_compliesWith (h : ofGraph g = .ok d) {k : Gate}
    (complies : k.CompliesWith d.graph) (accepted : k.fault? d.size = none) : d.Expands k [k] := by
  cases complies with
  | plain hkind => exact .plain hkind
  | @cnot c t edge =>
    obtain ⟨-, nodup, -⟩ := Gate.fault?_eq_none_iff.1 accepted
    have hct : c ≠ t := by simpa [Gate.cnot, Gate.toffoli, Gate.lines] using nodup
    exact .cnot (c := ⟨c, true⟩) (route_of_hasEdge h edge hct)

end Device

namespace Circuit

variable {c out : Circuit} {g : CouplingGraph} {d : Device}

/-- A circuit of native gates on all qubits of the device is not changed by the expansion. -/
theorem expand_of_compliesWith (h : Device.ofGraph g = .ok d) (width : c.width = d.size)
    (accepted : ∀ k ∈ c.gates, k.fault? d.size = none)
    (complies : ∀ k ∈ c.gates, k.CompliesWith d.graph) : c.expand d = .ok c := by
  refine expand_eq_ok_iff.2 ⟨width.le, c.gates.map ([·]), ?_, ?_⟩
  · rw [List.forall₂_map_right_iff, List.forall₂_same]
    intro k hk
    exact ⟨Device.expands_of_compliesWith h (complies k hk) (accepted k hk),
      by simpa using accepted k hk⟩
  · rw [← width, padTo_width, ← List.flatMap_def, List.flatMap_singleton']

/-- An expanded circuit is not changed by another expansion. -/
theorem expand_of_expand (h : Device.ofGraph g = .ok d) (expand : c.expand d = .ok out) :
    out.expand d = .ok out := by
  obtain ⟨width, each⟩ := compliesWith_of_expand (fun _ _ _ hr => Device.isEntry_of_ofGraphBy h hr)
    expand
  exact expand_of_compliesWith h width (fun k hk => (each k hk).1) fun k hk => (each k hk).2

end Circuit

/-- On a device that was built from a graph with a number of pairs that is in range, an expanded
circuit is its own expansion. The circuits that are their own expansions are the valid ones on as
many lines as the device has qubits whose gates are supported and whose CNOTs all fire on 1 and run
along an edge of the graph. -/
theorem expansion_fixes_native_circuits {g : CouplingGraph} {d : Device}
    (range : g.size * g.size < wordBound)
    (built : Device.ofGraph g = .ok d ∨ Device.ofGraphWrapped g = .ok d) :
    (∀ c out : Circuit, c.expand d = .ok out → out.expand d = .ok out) ∧
      ∀ c : Circuit, c.expand d = .ok c ↔
        c.width = d.size ∧ c.IsValid ∧ (∀ k ∈ c.gates, k.IsSupported) ∧
          ∀ k ∈ c.gates, ∀ control t, k = .toffoli [control] t →
            control.positive = true ∧ g.hasEdge control.line t = true := by
  rw [Device.ofGraphWrapped_eq_ofGraph range, or_self] at built
  refine ⟨fun c out expand => Circuit.expand_of_expand built expand, fun c => ?_⟩
  obtain rfl := Device.graph_of_ofGraph built
  constructor
  · intro expand
    obtain ⟨width, each⟩ :=
      Circuit.compliesWith_of_expand (fun _ _ _ hr => Device.isEntry_of_ofGraphBy built hr) expand
    have native := fun k hk => Gate.compliesWith_iff.1 (each k hk).2
    refine ⟨width, fun k hk => ?_, fun k hk => (native k hk).1, fun k hk => (native k hk).2⟩
    rw [width]
    exact (each k hk).1
  · rintro ⟨width, valid, supported, native⟩
    refine Circuit.expand_of_compliesWith built width (width ▸ valid) fun k hk => ?_
    exact Gate.compliesWith_iff.2 ⟨supported k hk, native k hk⟩

/-- Both directions of the edge are native, and neither CNOT is flipped. -/
theorem expansion_fixes_native_circuits_bothWays :
    let g := CouplingGraph.ofPairs 2 [(0, 1), (1, 0)]
    let c : Circuit := ⟨"", [.unnamed, .unnamed], [.cnot 0 1, .hadamard 1, .cnot 1 0]⟩
    ∃ d, Device.ofGraph g = .ok d ∧ c.expand d = .ok c := by
  intro g c
  have device : Device.ofGraph g = .ok ⟨g, .ofRoutes 2
      [[], [⟨.native, 0, 1, none⟩], [⟨.native, 1, 0, none⟩], []]⟩ := by
    apply ok_of_toOption
    decide +kernel
  have valid : c.IsValid := by
    unfold Circuit.IsValid
    decide
  have supported : ∀ k ∈ c.gates, k.IsSupported := by
    simp only [c, List.forall_mem_cons, List.not_mem_nil, false_imp_iff, implies_true, and_true]
    exact ⟨.cnot ⟨0, true⟩ 1, .plain (by simp), .cnot ⟨1, true⟩ 0⟩
  have native : ∀ k ∈ c.gates, ∀ control t, k = .toffoli [control] t →
      control.positive = true ∧ g.hasEdge control.line t = true := by
    have edges : g.hasEdge 0 1 = true ∧ g.hasEdge 1 0 = true := by decide
    simp only [c, List.forall_mem_cons, List.not_mem_nil, false_imp_iff, implies_true, and_true]
    simp [Gate.cnot, Gate.toffoli, Gate.hadamard, edges]
  obtain ⟨-, own⟩ := expansion_fixes_native_circuits (by decide) (.inl device)
  exact ⟨_, device, (own c).2 ⟨rfl, valid, supported, native⟩⟩

/-- On the long chain a native CNOT has no expansion where arithmetic is not checked. -/
theorem native_circuit_without_expansion :
    let g := CouplingGraph.chain 65536
    let c : Circuit := ⟨"", List.replicate 65536 .unnamed, [.cnot 0 1]⟩
    ∃ d, Device.ofGraphWrapped g = .ok d ∧ c.width = d.size ∧ c.IsValid ∧
      g.hasEdge 0 1 = true ∧ c.expand d = .error .outOfBounds := by
  intro g c
  have width : c.width = 65536 := List.length_replicate
  have inside : 1 < c.width := by
    rw [width]
    decide
  have valid : c.IsValid := Circuit.isValid_cnot Nat.zero_ne_one (Nat.zero_lt_of_lt inside) inside
  have edge : g.hasEdge 0 1 = true := CouplingGraph.hasEdge_chain.2 ⟨rfl, by decide⟩
  exact ⟨.longChain, Device.ofGraph_longChain.2, width, valid, edge,
    Circuit.expand_longChain rfl width.le (by decide) (by decide)⟩

end CnotRouting
