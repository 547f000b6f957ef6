import CnotRouting.Proofs.ConnectedGraphs
import CnotRouting.Proofs.FoundPlacements
import CnotRouting.Proofs.MappingRuns
import CnotRouting.Proofs.PlacedActions

/-!
# The meaning of mapped circuits

On the device of a graph the lowered route of every pair acts as its CNOT. An expanded circuit
therefore acts as the circuit that was expanded, whatever the gates other than NOT and Hadamard
stand for. A mapped circuit does on the sites of its placement what the circuit does on its lines,
and leaves all other sites alone.
-/

namespace CnotRouting

universe u

section

variable {R : Type u} [CommRing R] (m : GateMatrices R)

/-- The CNOT that fires on 0 is the CNOT between two NOTs of its control. -/
theorem Gate.act_cnotOnZero {n c t : Nat} (hc : c < n) (ht : t < n)
    (ψ : StateVector R n) :
    actAll m [.not c, .cnot c t, .not c] ψ = (cnotOnZero c t).act m ψ := by
  funext x
  have fires : (cnotOnZero c t).fires x = !x.bit c := by
    simp [cnotOnZero, toffoli, Gate.fires]
  have here := act_toffoli m [⟨c, false⟩] t ψ x
  simp only [actAll_cons, actAll_nil, act_not, act_cnot]
  rw [cnotOnZero] at fires ⊢
  rw [here, fires]
  congr 1
  refine BitString.ext_bit fun r _ => ?_
  cases hx : x.bit c <;> by_cases hrc : r = c <;> by_cases hrt : r = t <;>
    simp [BitString.bit_flipIf _ ht, BitString.bit_flip _ hc, BitString.bit_flip _ ht, hx, hrc, hrt]

/-- What acts as the positive CNOT acts as the CNOT of either polarity between its guards. -/
theorem Control.act_guards {n : Nat} {c : Control} {t : Nat} (hc : c.line < n) (ht : t < n)
    {gates : List Gate}
    (h : ∀ ψ : StateVector R n, actAll m gates ψ = (Gate.cnot c.line t).act m ψ)
    (ψ : StateVector R n) :
    actAll m (c.guards ++ gates ++ c.guards) ψ = (Gate.toffoli [c] t).act m ψ := by
  obtain ⟨q, positive⟩ := c
  cases positive with
  | true => simpa [guards, Gate.cnot] using h ψ
  | false =>
    have around := Gate.act_cnotOnZero m hc ht ψ
    simp only [actAll_cons, actAll_nil] at around
    simpa [guards, h, Gate.cnotOnZero] using around

namespace Device

variable {d : Device}

/-- On the device of a graph, the lowered route of a pair acts as its CNOT. -/
theorem act_route (valid : d.graph.IsValid) (h : ofGraph d.graph = .ok d) {v w : Nat} {r : Route}
    (hr : d.table.route v w = .ok r) (hp : IsPair d.size (v, w)) (ψ : StateVector R d.size) :
    actAll m r.lower ψ = (Gate.cnot v w).act m ψ := by
  obtain ⟨moves, t, rfl, approaches⟩ :=
    CouplingGraph.cheapestRoute_approaches hp.ne (cheapestRoute_of_ofGraph h hr)
  exact approaches.act_lower m valid hp ψ

/-- The expansion of a gate acts as the gate. -/
theorem Expands.act {g : Gate} {part : List Gate} (hx : d.Expands g part)
    (valid : d.graph.IsValid) (h : ofGraph d.graph = .ok d) (accepted : g.fault? d.size = none)
    (ψ : StateVector R d.size) : actAll m part ψ = g.act m ψ := by
  cases hx with
  | plain hkind => rfl
  | cnot hr =>
    obtain ⟨hct, hc, ht⟩ := Gate.fault?_toffoli.1 accepted
    exact Control.act_guards m hc ht (fun φ => act_route m valid h hr ⟨hct, hc, ht⟩ φ) ψ

theorem act_parts (valid : d.graph.IsValid) (h : ofGraph d.graph = .ok d) {gates : List Gate}
    {parts : List (List Gate)} (hparts : List.Forall₂ d.Expands gates parts)
    (accepted : ∀ g ∈ gates, g.fault? d.size = none) (ψ : StateVector R d.size) :
    actAll m parts.flatten ψ = actAll m gates ψ := by
  induction hparts generalizing ψ with
  | nil => rfl
  | cons hx _ ih =>
    obtain ⟨hg, hgates⟩ := List.forall_mem_cons.1 accepted
    rw [List.flatten_cons, actAll_append, hx.act m valid h hg, ih hgates, actAll_cons]

end Device

/-- On the device of a graph, an expanded circuit acts as the circuit. -/
theorem Circuit.act_expand {d : Device} (valid : d.graph.IsValid)
    (h : Device.ofGraph d.graph = .ok d) {c out : Circuit}
    (accepted : ∀ g ∈ c.gates, g.fault? d.size = none) (hout : c.expand d = .ok out)
    (ψ : StateVector R d.size) : actAll m out.gates ψ = actAll m c.gates ψ := by
  obtain ⟨-, parts, hparts, rfl⟩ := expand_eq_ok_iff.1 hout
  exact Device.act_parts m valid h (hparts.imp fun _ _ hx => hx.1) accepted ψ

end

/-- Whether a circuit of `n` lines does on the sites of a placement what `c` does on its own lines:
it acts as the gates of `c` with every line read as its site, and on each slice of a state, that is
for each setting of the lines without a site, as `c` itself. -/
structure Circuit.ActsAs (out c : Circuit) (p : Placement) (n : Nat) : Prop where
  width : out.width = n
  on_sites : ∀ {R : Type u} [CommRing R] (m : GateMatrices R) (ψ : StateVector R n),
    actAll m out.gates ψ = actAll m (c.gates.map (·.relabel p.siteOf)) ψ
  on_slices : ∀ {R : Type u} [CommRing R] (m : GateMatrices R) (ψ : StateVector R n)
    (x : BitString n),
    (actAll m out.gates ψ).slice p c.width x = actAll m c.gates (ψ.slice p c.width x)

/-- Under every placement that fits, a valid circuit of supported gates is placed and expanded, and
the result does on the sites what the circuit does. -/
theorem Placement.Fits.exists_actsAs {d : Device} (valid : d.graph.IsValid)
    (h : Device.ofGraph d.graph = .ok d) {c : Circuit} (validCircuit : c.IsValid)
    (supported : ∀ g ∈ c.gates, g.IsSupported) {p : Placement} (fits : p.Fits c.width d.size) :
    ∃ placed out, p.apply c d.size = .ok placed ∧ placed.expand d = .ok out ∧
      Circuit.ActsAs.{u} out c p d.size := by
  obtain ⟨placed, out, hplaced, hgates, accepted, hout⟩ :=
    fits.exists_expand_apply (Device.isConsistent_of_ofGraph valid h) validCircuit supported
  have acts : ∀ {R : Type u} [CommRing R] (m : GateMatrices R) (ψ : StateVector R d.size),
      actAll m out.gates ψ = actAll m (c.gates.map (·.relabel p.siteOf)) ψ := by
    intro R _ m ψ
    rw [Circuit.act_expand m valid h accepted hout, hgates]
  have width : out.width = d.size := by
    obtain ⟨narrow, parts, -, rfl⟩ := Circuit.expand_eq_ok_iff.1 hout
    exact Circuit.width_padTo narrow
  refine ⟨placed, out, hplaced, hout, width, acts, ?_⟩
  intro R _ m ψ x
  rw [acts m ψ]
  exact fits.slice_actAll m validCircuit ψ x

/-- Under every strategy, a valid circuit of supported gates is mapped, and the result does on the
sites of its placement what the circuit does. -/
theorem Circuit.exists_map {d : Device} (valid : d.graph.IsValid)
    (h : Device.ofGraph d.graph = .ok d) {c : Circuit} (validCircuit : c.IsValid)
    (supported : ∀ g ∈ c.gates, g.IsSupported) (narrow : c.width ≤ d.size) (s : Strategy) :
    ∃ mapped, c.map d s = .ok mapped ∧ mapped.placement.Fits c.width d.size ∧
      Circuit.ActsAs.{u} mapped.circuit c mapped.placement d.size := by
  obtain ⟨result, p, search, best, fits⟩ :=
    (Device.isConsistent_of_ofGraph valid h).search_fits validCircuit narrow s
  obtain ⟨placed, out, place, expand, acts⟩ := fits.exists_actsAs valid h validCircuit supported
  exact ⟨⟨out, p, result.cost⟩, Circuit.MapsBy.map_eq (.mapped search best place expand), fits, acts⟩

/-- Mapping preserves meaning: every valid connected graph with a number of pairs that is in range has
a device, and every valid circuit of supported gates that is no larger than it is placed and expanded
under every placement, and mapped under every strategy, into a circuit that does on the sites what
the circuit does on its lines. -/
theorem mapping_preserves_meaning {g : CouplingGraph} (valid : g.IsValid)
    (connected : g.IsConnected) (range : g.size * g.size < wordBound) :
    ∃ d, Device.ofGraph g = .ok d ∧ Device.ofGraphWrapped g = .ok d ∧ ∀ c : Circuit, c.IsValid →
      (∀ k ∈ c.gates, k.IsSupported) → c.width ≤ g.size →
      (∀ sites p, Placement.ofSites sites g.size = .ok p → sites.length = c.width →
        ∃ placed out, p.apply c g.size = .ok placed ∧ placed.expand d = .ok out ∧
          Circuit.ActsAs.{u} out c p g.size) ∧
      ∀ s : Strategy, ∃ mapped, c.map d s = .ok mapped ∧
        mapped.placement.Fits c.width g.size ∧
        Circuit.ActsAs.{u} mapped.circuit c mapped.placement g.size := by
  obtain ⟨d, hd, wrapped⟩ := Device.exists_ofGraph valid connected range
  obtain rfl := Device.graph_of_ofGraph hd
  refine ⟨d, hd, wrapped, ?_⟩
  intro c validCircuit supported narrow
  constructor
  · intro sites p hp covers
    obtain ⟨-, fits⟩ := Placement.ofSites_eq_ok_iff.1 hp
    rw [covers] at fits
    exact fits.exists_actsAs valid hd validCircuit supported
  · exact Circuit.exists_map valid hd validCircuit supported narrow

theorem mapping_preserves_meaning_chain_two :
    let c := Circuit.twoGates
    ∃ d, Device.ofGraph (.chain 2) = .ok d ∧
      (∃ placed out, Placement.apply ⟨[1, 0]⟩ c 2 = .ok placed ∧ placed.expand d = .ok out ∧
        Circuit.ActsAs.{0} out c ⟨[1, 0]⟩ 2) ∧
      ∃ mapped, c.map d .greedy = .ok mapped ∧ mapped.placement.Fits 2 2 ∧
        Circuit.ActsAs.{0} mapped.circuit c mapped.placement 2 := by
  intro c
  have placement : Placement.ofSites [1, 0] (CouplingGraph.chain 2).size = .ok ⟨[1, 0]⟩ := rfl
  obtain ⟨d, hd, -, mapped⟩ := mapping_preserves_meaning (CouplingGraph.isValid_chain 2)
    (CouplingGraph.isConnected_chain 2) (by decide)
  obtain ⟨placed, found⟩ :=
    mapped c Circuit.twoGates_isValid Circuit.twoGates_isSupported (Nat.le_refl 2)
  exact ⟨d, hd, placed _ _ placement rfl, found .greedy⟩

/-- Of the long chain no device is built where arithmetic is checked. Where it is not, a placed CNOT
has no expansion on its device. -/
theorem mapping_fails_longChain :
    let g := CouplingGraph.chain 65536
    g.IsValid ∧ g.IsConnected ∧ Device.ofGraph g = .error .outOfBounds ∧
      ∃ d placed, Device.ofGraphWrapped g = .ok d ∧
        Placement.ofSites [0, 1] d.size = .ok ⟨[0, 1]⟩ ∧
        Placement.apply ⟨[0, 1]⟩ .oneCnot d.size = .ok placed ∧
        placed.expand d = .error .outOfBounds := by
  obtain ⟨checked, wrapped⟩ := Device.ofGraph_longChain
  obtain ⟨placed, hplaced, expand, -⟩ := Placement.place_oneCnot_longChain
  exact ⟨CouplingGraph.isValid_chain 65536, CouplingGraph.isConnected_chain 65536, checked, _,
    placed, wrapped, Placement.ofSites_firstTwo (by decide), hplaced, expand⟩

end CnotRouting
