import CnotRouting.Proofs.CountedInteractions
import CnotRouting.Proofs.ExpandedCircuits
import CnotRouting.Proofs.FoundPlacements
import CnotRouting.Proofs.RelabeledCircuits
import CnotRouting.Proofs.WrappedTables

/-!
# The cost of expansions

On a consistent device, a circuit of supported gates has an expansion. Every CNOT adds as many gates
to it as its pair costs, and two more if it fires on 0. The cost of a placement therefore tells how
many gates the expansion of the placed circuit has.
-/

namespace CnotRouting

namespace Gate

variable {n : Nat}

theorem fault?_not {q : Nat} (hq : q < n) : (Gate.not q).fault? n = none := by
  simp [fault?_eq_none_iff, Gate.not, lines, hq]

theorem fault?_hadamard {q : Nat} (hq : q < n) : (hadamard q).fault? n = none := by
  simp [fault?_eq_none_iff, hadamard, lines, hq]

theorem isCnotOnZero_relabel (f : Nat → Nat) (g : Gate) :
    (g.relabel f).isCnotOnZero = g.isCnotOnZero := by
  rcases g with ⟨kind, targets, _ | ⟨c, _ | ⟨c', controls⟩⟩⟩ <;> cases kind <;> rfl

end Gate

theorem Control.length_guards (c : Control) :
    c.guards.length = if c.positive then 0 else 1 := by
  rw [guards]
  split <;> rfl

namespace Device

variable {d : Device}

/-- A supported gate of a circuit on the device has an expansion that the device accepts. -/
theorem IsConsistent.exists_expands (h : d.IsConsistent) {g : Gate} (supported : g.IsSupported)
    (accepted : g.fault? d.size = none) :
    ∃ part, d.Expands g part ∧ ∀ k ∈ part, k.fault? d.size = none := by
  cases supported with
  | plain hkind =>
    refine ⟨_, .plain hkind, ?_⟩
    intro k hk
    obtain rfl := List.mem_singleton.1 hk
    exact accepted
  | cnot c t =>
    obtain ⟨hct, hc, ht⟩ := Gate.fault?_toffoli.1 accepted
    obtain ⟨r, hr, serves⟩ := h.serves hc ht hct
    refine ⟨_, .cnot hr, ?_⟩
    intro k hk
    rcases Control.mem_guarded hk with rfl | hk
    · exact Gate.fault?_not hc
    · rcases serves.mem_lower hk with ⟨q, hq, rfl⟩ | ⟨v, w, edge, rfl⟩
      · exact Gate.fault?_hadamard hq
      · apply Gate.fault?_toffoli.2
        exact ⟨h.valid.ne edge, CouplingGraph.lt_size_of_hasEdge edge⟩

/-- The expansion of a CNOT has one gate more than its pair costs, and two further ones if it fires
on 0. -/
theorem Expands.length_part {g : Gate} {part : List Gate} (hx : d.Expands g part)
    (h : d.IsConsistent) (accepted : g.fault? d.size = none) :
    part.length = 1 + (g.cnotPair?.map fun pair => d.table.costAt pair.1 pair.2).getD 0 +
      2 * if g.isCnotOnZero then 1 else 0 := by
  cases hx with
  | @plain kind t hkind =>
    have none : Gate.cnotPair? ⟨kind, [t], []⟩ = none := by cases kind <;> rfl
    have plain : Gate.isCnotOnZero ⟨kind, [t], []⟩ = false := by cases kind <;> rfl
    simp [none, plain]
  | @cnot c t r hr =>
    obtain ⟨hct, hc, ht⟩ := Gate.fault?_toffoli.1 accepted
    obtain ⟨-, -, hentry⟩ := h.of_route hr
    have serves : r.Serves d.graph c.line t := by simpa [IsEntry, hct] using hentry
    have cost : d.table.costAt c.line t = r.cost := d.table.cost_eq_costAt (h.cost_eq_ok hr)
    have pair : (Gate.toffoli [c] t).cnotPair? = some (c.line, t) := rfl
    have onZero : (Gate.toffoli [c] t).isCnotOnZero = !c.positive := rfl
    rw [pair, onZero, Option.map_some, Option.getD_some, cost]
    simp only [List.length_append, Control.length_guards, Route.length_lower serves.realizes]
    cases c.positive <;> simp <;> omega

end Device

namespace Circuit

variable {c out : Circuit} {d : Device}

/-- A circuit of supported gates has an expansion. -/
theorem exists_expand (h : d.IsConsistent) (fits : c.width ≤ d.size)
    (supported : ∀ g ∈ c.gates, g.IsSupported) (accepted : ∀ g ∈ c.gates, g.fault? d.size = none) :
    ∃ out, c.expand d = .ok out := by
  obtain ⟨parts, hparts⟩ := exists_forall₂ fun g hg =>
    h.exists_expands (supported g hg) (accepted g hg)
  exact ⟨_, expand_eq_ok_iff.2 ⟨fits, parts, hparts, rfl⟩⟩

theorem length_flatten_parts (h : d.IsConsistent) {gates : List Gate} {parts : List (List Gate)}
    (hparts : List.Forall₂ d.Expands gates parts) (accepted : ∀ g ∈ gates, g.fault? d.size = none) :
    parts.flatten.length = gates.length +
      totalCost ((gates.filterMap Gate.cnotPair?).map (Interactions.pairCost d.table id)) +
      2 * gates.countP Gate.isCnotOnZero := by
  induction hparts with
  | nil => rfl
  | @cons g part gates parts hx _ ih =>
    obtain ⟨hg, hgates⟩ := List.forall_mem_cons.1 accepted
    have tail := ih hgates
    have first := hx.length_part h hg
    rw [List.flatten_cons, List.length_append, tail, first, List.length_cons, List.countP_cons]
    cases hpair : g.cnotPair? with
    | none =>
      rw [List.filterMap_cons_none hpair, Option.map_none, Option.getD_none]
      omega
    | some pair =>
      rw [List.filterMap_cons_some hpair, Option.map_some, Option.getD_some, List.map_cons,
        totalCost_cons]
      have cost : Interactions.pairCost d.table id pair = d.table.costAt pair.1 pair.2 := rfl
      omega

/-- The expansion has as many gates more than the circuit as its interactions cost in place, and two
for each CNOT that fires on 0. -/
theorem length_of_expand (h : d.IsConsistent) (accepted : ∀ g ∈ c.gates, g.fault? d.size = none)
    (hout : c.expand d = .ok out) : out.gates.length = c.gates.length +
      (Interactions.ofCircuit c).placedCost d.table id + 2 * c.gates.countP Gate.isCnotOnZero := by
  obtain ⟨-, parts, hparts, rfl⟩ := expand_eq_ok_iff.1 hout
  exact length_flatten_parts h (hparts.imp fun _ _ hx => hx.1) accepted

theorem placedCost_relabel (t : RouteTable) (f : Nat → Nat) (name : String) (lines : List Line) :
    (Interactions.ofCircuit ⟨name, lines, c.gates.map (·.relabel f)⟩).placedCost t id =
      (Interactions.ofCircuit c).placedCost t f := by
  rw [Interactions.placedCost, pairs_relabel, List.map_map]
  rfl

end Circuit

/-! ### Placed circuits -/

namespace Placement.Fits

variable {p : Placement} {c : Circuit} {d : Device}

/-- Under a placement that fits, a valid circuit of supported gates has an expansion. -/
theorem exists_expand_apply (h : p.Fits c.width d.size) (consistent : d.IsConsistent)
    (valid : c.IsValid) (supported : ∀ g ∈ c.gates, g.IsSupported) :
    ∃ placed out, p.apply c d.size = .ok placed ∧
      placed.gates = c.gates.map (·.relabel p.siteOf) ∧
      (∀ g ∈ placed.gates, g.fault? d.size = none) ∧ placed.expand d = .ok out := by
  have accepted : ∀ g ∈ c.gates.map (·.relabel p.siteOf), g.fault? d.size = none :=
    h.accepted_relabel valid
  have relabeled : ∀ g ∈ c.gates.map (·.relabel p.siteOf), g.IsSupported :=
    List.forall_mem_map.2 fun g hg => (supported g hg).relabel p.siteOf
  have fits : Circuit.width ⟨c.name, (List.range d.size).map (p.lineAt c.lines),
      c.gates.map (·.relabel p.siteOf)⟩ ≤ d.size := by
    simp [Circuit.width]
  obtain ⟨out, hout⟩ := Circuit.exists_expand consistent fits relabeled accepted
  exact ⟨_, out, apply_eq_ok h valid, rfl, accepted, hout⟩

/-- On a consistent device, the cost of a placement that fits is the sum over all interactions. -/
theorem cost_eq_ok (h : p.Fits c.width d.size) (consistent : d.IsConsistent) (valid : c.IsValid) :
    p.cost (.ofCircuit c) d.table =
      .ok ((Interactions.ofCircuit c).placedCost d.table p.siteOf) := by
  have size : d.table.size = d.size := consistent.size_eq
  have narrow : c.width ≤ d.size := h.length ▸ length_le_of_lt h.nodup h.lt
  exact (consistent.isServedBy valid narrow).cost_eq_ok (size.symm ▸ h)

end Placement.Fits

/-- The cost of a placement is the overhead of the expansion: on every device that was obtained from
a valid graph with a number of pairs that is in range, or from a text, the expansion of the placed
circuit has as many gates more than the circuit as the placement costs, and two for each CNOT that
fires on 0. The cost is that of the distinct pairs at their sites, weighted by how often they
occur. -/
theorem length_expand_apply {d : Device} (hd : d.IsObtained) {c : Circuit} (valid : c.IsValid)
    (supported : ∀ g ∈ c.gates, g.IsSupported) {sites : List Nat} {p : Placement}
    (hp : Placement.ofSites sites d.size = .ok p) (covers : sites.length = c.width) :
    ∃ placed out cost, p.apply c d.size = .ok placed ∧ placed.expand d = .ok out ∧
      p.cost (.ofCircuit c) d.table = .ok cost ∧
      cost = totalCost ((Interactions.ofCircuit c).counts.map fun entry =>
        entry.2.2 * d.table.costAt (p.siteOf entry.1) (p.siteOf entry.2.1)) ∧
      out.gates.length = c.gates.length + cost + 2 * c.gates.countP Gate.isCnotOnZero := by
  obtain ⟨-, fits⟩ := Placement.ofSites_eq_ok_iff.1 hp
  rw [covers] at fits
  have consistent := hd.isConsistent
  obtain ⟨placed, out, hplaced, hgates, accepted, hout⟩ :=
    fits.exists_expand_apply consistent valid supported
  refine ⟨placed, out, _, hplaced, hout, fits.cost_eq_ok consistent valid,
    Interactions.placedCost_eq_counts _ _ _, ?_⟩
  have length := Circuit.length_of_expand consistent accepted hout
  obtain ⟨name, lines, gates⟩ := placed
  obtain rfl : gates = c.gates.map (·.relabel p.siteOf) := hgates
  have negatives : (c.gates.map (·.relabel p.siteOf)).countP Gate.isCnotOnZero =
      c.gates.countP Gate.isCnotOnZero := by
    simp only [List.countP_map, Function.comp_def, Gate.isCnotOnZero_relabel]
  rw [Circuit.placedCost_relabel, negatives, List.length_map] at length
  exact length

/-- A Hadamard, and a CNOT that fires on 0. -/
def Circuit.twoGates : Circuit := ⟨"", [.unnamed, .unnamed], [.hadamard 0, .cnotOnZero 0 1]⟩

theorem Circuit.twoGates_isValid : twoGates.IsValid := by
  simp [IsValid, twoGates, Gate.fault?_hadamard, Gate.cnotOnZero, Gate.fault?_toffoli, width]

theorem Circuit.twoGates_isSupported : ∀ g ∈ twoGates.gates, g.IsSupported := by
  simp only [twoGates, List.forall_mem_cons, List.not_mem_nil, false_imp_iff, implies_true, and_true]
  exact ⟨.plain (by simp), .cnot _ 1⟩

theorem length_expand_apply_twoQubits :
    let c := Circuit.twoGates
    ∃ placed out cost, Placement.apply ⟨[1, 0]⟩ c 2 = .ok placed ∧
      placed.expand .twoQubits = .ok out ∧
      Placement.cost ⟨[1, 0]⟩ (.ofCircuit c) Device.twoQubits.table = .ok cost ∧
      cost = totalCost ((Interactions.ofCircuit c).counts.map fun entry =>
        entry.2.2 * Device.twoQubits.table.costAt (Placement.siteOf ⟨[1, 0]⟩ entry.1)
          (Placement.siteOf ⟨[1, 0]⟩ entry.2.1)) ∧
      out.gates.length = c.gates.length + cost + 2 * c.gates.countP Gate.isCnotOnZero := by
  intro c
  have placement : Placement.ofSites [1, 0] Device.twoQubits.size = .ok ⟨[1, 0]⟩ := rfl
  exact length_expand_apply Device.isObtained_twoQubits Circuit.twoGates_isValid
    Circuit.twoGates_isSupported placement rfl

/-- On the long chain, built where arithmetic is not checked, a placed CNOT has no expansion and its
placement no cost. -/
theorem expansion_cost_fails_longChain :
    ∃ d placed, Device.ofGraphWrapped (.chain 65536) = .ok d ∧ Circuit.oneCnot.IsValid ∧
      (∀ g ∈ Circuit.oneCnot.gates, g.IsSupported) ∧
      Placement.ofSites [0, 1] d.size = .ok ⟨[0, 1]⟩ ∧
      Placement.apply ⟨[0, 1]⟩ .oneCnot d.size = .ok placed ∧
      placed.expand d = .error .outOfBounds ∧
      Placement.cost ⟨[0, 1]⟩ (.ofCircuit .oneCnot) d.table = .error .outOfBounds := by
  obtain ⟨placed, hplaced, expand, cost⟩ := Placement.place_oneCnot_longChain
  exact ⟨_, placed, Device.ofGraph_longChain.2, Circuit.oneCnot_isValid,
    Circuit.oneCnot_isSupported, Placement.ofSites_firstTwo (by decide), hplaced, expand, cost⟩

end CnotRouting
