import CnotRouting.Proofs.FoundPlacements
import CnotRouting.Proofs.MappingRuns

/-!
# When mapping fails

A valid circuit fails to map onto a device that was obtained from a graph or a text for two reasons
only: it has more lines than the device has qubits, or one of its gates has no expansion. Of these
gates the first one in the circuit is reported, with its position and its name there, although it is
met at the sites of its lines. In all other cases every step of the mapping succeeds.
-/

namespace CnotRouting

/-- Whether a gate has no expansion. -/
inductive Gate.IsUnsupported (g : Gate) : Prop where
  | targets (h : g.targets.length ≠ 1)
  | custom {name : String} (h : g.kind = .custom name)
  | controlled (h : g.kind ≠ .toffoli) (hc : g.controls ≠ [])
  | controls (h : g.kind = .toffoli) (hc : 2 ≤ g.controls.length)

theorem Gate.isUnsupported_iff {g : Gate} : g.IsUnsupported ↔ ¬g.IsSupported := by
  constructor
  · intro unsupported supported
    cases supported with
    | plain h => cases unsupported <;> simp_all
    | cnot c t => cases unsupported <;> simp_all [toffoli]
  · intro unsupported
    obtain ⟨kind, targets, controls⟩ := g
    by_cases ht : targets.length = 1
    · obtain ⟨t, rfl⟩ := List.length_eq_one_iff.1 ht
      by_cases hk : ∃ name, kind = .custom name
      · obtain ⟨name, rfl⟩ := hk
        exact .custom rfl
      · have plain : ∀ name, kind ≠ .custom name := fun name h => hk ⟨name, h⟩
        cases controls with
        | nil => exact absurd (.plain plain) unsupported
        | cons c more =>
          by_cases hn : kind = .toffoli
          · subst hn
            cases more with
            | nil => exact absurd (.cnot c t) unsupported
            | cons c' more => exact .controls rfl (by simp)
          · exact .controlled hn (by simp)
    · exact .targets ht

theorem Gate.isSupported_of_not {g : Gate} (h : ¬g.IsUnsupported) : g.IsSupported := by
  rwa [isUnsupported_iff, not_not] at h

theorem Gate.IsUnsupported.of_same_shape {g k : Gate} (h : g.IsUnsupported)
    (kind : k.kind = g.kind) (targets : k.targets.length = g.targets.length)
    (controls : k.controls.length = g.controls.length) : k.IsUnsupported := by
  cases h with
  | targets h => exact .targets (by omega)
  | custom h => exact .custom (kind.trans h)
  | controlled h hc =>
    refine .controlled (kind ▸ h) ?_
    rw [← List.length_pos_iff] at hc ⊢
    omega
  | controls h hc => exact .controls (kind.trans h) (by omega)

/-- It does not matter for a gate which lines it touches. -/
theorem Gate.isUnsupported_relabel {g : Gate} {f : Nat → Nat} :
    (g.relabel f).IsUnsupported ↔ g.IsUnsupported :=
  ⟨fun h => h.of_same_shape rfl (by simp [relabel]) (by simp [relabel]),
    fun h => h.of_same_shape rfl (by simp [relabel]) (by simp [relabel])⟩

/-- Whether the gate at a position is the first one without an expansion, and has the given name. -/
def Circuit.FirstUnsupported (c : Circuit) (position : Nat) (name : String) : Prop :=
  ∃ before g after, c.gates = before ++ g :: after ∧ (∀ k ∈ before, ¬k.IsUnsupported) ∧
    g.IsUnsupported ∧ position = before.length ∧ name = g.name

namespace Circuit

variable {c : Circuit} {d : Device}

theorem exists_firstUnsupported (h : ∃ g ∈ c.gates, g.IsUnsupported) :
    ∃ position name, c.FirstUnsupported position name := by
  classical
  obtain ⟨g, hg, unsupported⟩ := h
  have found : (c.gates.find? fun g => g.IsUnsupported).isSome = true :=
    List.find?_isSome.2 ⟨g, hg, by simpa using unsupported⟩
  obtain ⟨first, hfirst⟩ := Option.isSome_iff_exists.1 found
  obtain ⟨hfirst, before, after, split, supported⟩ := List.find?_eq_some_iff_append.1 hfirst
  exact ⟨before.length, first.name, before, first, after, split, by simpa using supported,
    by simpa using hfirst, rfl, rfl⟩

end Circuit

/-! ### Expansion -/

theorem Device.checkedExpansion_of_isUnsupported {d : Device} {g : Gate} (h : g.IsUnsupported)
    (position : Nat) :
    d.checkedExpansion position g = .error (.unsupportedGate position g.name) := by
  have unsupported := Gate.isUnsupported_iff.1 h
  have refused : d.expansion position g = .error (.unsupportedGate position g.name) := by
    obtain ⟨kind, targets, controls⟩ := g
    rw [expansion]
    split
    · rename_i t c htargets hcontrols hkind
      simp only at htargets hcontrols hkind
      subst htargets hcontrols hkind
      exact absurd (.cnot c t) unsupported
    · rfl
    · rename_i t htargets hcontrols plain
      simp only at htargets hcontrols plain
      subst htargets hcontrols
      exact absurd (.plain plain) unsupported
    · rfl
  rw [checkedExpansion, bind_of_error refused]

theorem Circuit.expand_of_firstUnsupported {c : Circuit} {d : Device} (h : d.IsConsistent)
    (fits : c.width ≤ d.size) (accepted : ∀ g ∈ c.gates, g.fault? d.size = none) {position : Nat}
    {name : String} (first : c.FirstUnsupported position name) :
    c.expand d = .error (.unsupportedGate position name) := by
  obtain ⟨before, g, after, split, supported, unsupported, rfl, rfl⟩ := first
  have earlier : ∀ p ∈ before.zipIdx, ∃ part, d.checkedExpansion p.2 p.1 = .ok part := by
    intro p hp
    have hmem : p.1 ∈ before := (List.mem_zipIdx' hp).2 ▸ List.getElem_mem _
    obtain ⟨part, hpart⟩ := h.exists_expands (Gate.isSupported_of_not (supported p.1 hmem))
      (accepted p.1 (by simp [split, hmem]))
    exact ⟨part, Device.checkedExpansion_eq_ok_iff.2 hpart⟩
  have gates : c.gates.zipIdx =
      before.zipIdx ++ (g, before.length) :: after.zipIdx (before.length + 1) := by
    simp [split, List.zipIdx_append]
  rw [expand, if_neg (Nat.not_lt.2 fits), gates]
  exact bind_of_error
    (mapM_eq_error earlier (Device.checkedExpansion_of_isUnsupported unsupported before.length)) _

/-! ### Mapping -/

namespace Device.IsConsistent

variable {d : Device} {c : Circuit}

theorem search_of_large (h : d.IsConsistent) (large : d.size < c.width) (s : Strategy) :
    (Interactions.ofCircuit c).search d s = .error (.circuitTooLarge c.width d.size) := by
  have size : d.table.size = d.size := h.size_eq
  rw [← size] at large ⊢
  rcases (Interactions.ofCircuit c).search_eq d s with all | greedily
  · exact all.trans (if_pos large)
  · exact greedily.trans (if_pos large)

theorem map_of_large (h : d.IsConsistent) (large : d.size < c.width) (s : Strategy) :
    c.map d s = .error (.circuitTooLarge c.width d.size) :=
  Circuit.MapsBy.map_eq (.unsearched (h.search_of_large large s))

/-- A valid circuit that is no larger than the device is placed. What becomes of its mapping is up to
the expansion. -/
theorem exists_placed (h : d.IsConsistent) (valid : c.IsValid) (fits : c.width ≤ d.size)
    (s : Strategy) : ∃ (p : Placement) (placed : Circuit) (cost : Nat), p.Fits c.width d.size ∧
      placed.gates = c.gates.map (·.relabel p.siteOf) ∧ placed.width = d.size ∧
      (∀ e, placed.expand d = .error e → c.map d s = .error e) ∧
      ∀ out, placed.expand d = .ok out → c.map d s = .ok ⟨out, p, cost⟩ := by
  obtain ⟨result, p, search, best, hp⟩ := h.search_fits valid fits s
  have place := Placement.apply_eq_ok hp valid
  refine ⟨p, ⟨c.name, (List.range d.size).map (p.lineAt c.lines),
    c.gates.map (·.relabel p.siteOf)⟩, result.cost, hp, rfl, by simp [Circuit.width], ?_, ?_⟩
  · intro e expand
    exact Circuit.MapsBy.map_eq (.unexpanded search best place expand)
  · intro out expand
    exact Circuit.MapsBy.map_eq (.mapped search best place expand)

/-- The first gate without an expansion is the first one on the sites, too. -/
theorem map_of_firstUnsupported (h : d.IsConsistent) (valid : c.IsValid) (fits : c.width ≤ d.size)
    (s : Strategy) {position : Nat} {name : String} (first : c.FirstUnsupported position name) :
    c.map d s = .error (.unsupportedGate position name) := by
  obtain ⟨p, placed, cost, hp, gates, width, refuses, -⟩ := h.exists_placed valid fits s
  have accepted : ∀ g ∈ placed.gates, g.fault? d.size = none := gates ▸ hp.accepted_relabel valid
  have first : placed.FirstUnsupported position name := by
    obtain ⟨before, g, after, split, supported, unsupported, rfl, rfl⟩ := first
    refine ⟨before.map (·.relabel p.siteOf), g.relabel p.siteOf, after.map (·.relabel p.siteOf),
      by simp [gates, split], ?_, Gate.isUnsupported_relabel.2 unsupported, by simp, by simp⟩
    exact List.forall_mem_map.2 fun k hk => mt Gate.isUnsupported_relabel.1 (supported k hk)
  exact refuses _ (Circuit.expand_of_firstUnsupported h (by omega) accepted first)

theorem map_of_supported (h : d.IsConsistent) (valid : c.IsValid) (fits : c.width ≤ d.size)
    (s : Strategy) (supported : ∀ g ∈ c.gates, ¬g.IsUnsupported) :
    ∃ mapped, c.map d s = .ok mapped := by
  obtain ⟨p, placed, cost, hp, gates, width, -, maps⟩ := h.exists_placed valid fits s
  have accepted : ∀ g ∈ placed.gates, g.fault? d.size = none := gates ▸ hp.accepted_relabel valid
  have supported : ∀ g ∈ placed.gates, g.IsSupported := by
    rw [gates]
    exact List.forall_mem_map.2 fun k hk => (Gate.isSupported_of_not (supported k hk)).relabel _
  obtain ⟨out, expand⟩ := Circuit.exists_expand h (by omega) supported accepted
  exact ⟨_, maps out expand⟩

/-- The table has the cost and the route of every CNOT whose ends stand on the device. -/
theorem lookups_ok (h : d.IsConsistent) (valid : c.IsValid) {site : Nat → Nat}
    (hsite : ∀ line < c.width, site line < d.size) {pair : Nat × Nat}
    (hpair : pair ∈ (Interactions.ofCircuit c).pairs) :
    (∃ cost, d.table.cost (site pair.1) (site pair.2) = .ok cost) ∧
      ∃ r, d.table.route (site pair.1) (site pair.2) = .ok r := by
  obtain ⟨hcontrol, htarget⟩ := valid.pairs_lt hpair
  obtain ⟨r, hr, -⟩ := h.route_eq_ok (hsite _ hcontrol) (hsite _ htarget)
  exact ⟨⟨_, h.cost_eq_ok hr⟩, r, hr⟩

end Device.IsConsistent

/-- A valid circuit is refused by a device that was obtained from texts, or from a valid graph with a
number of pairs that is in range, exactly if it is larger than the device, or else if a gate has no
expansion, and then for the first such gate. In all other cases it is mapped. No other error arises,
and no lookup fails: wherever the lines of the circuit stand on the device, the table has the cost
and the route of every CNOT. -/
theorem map_fails_exactly {d : Device} (hd : d.IsObtained) {c : Circuit} (valid : c.IsValid)
    (s : Strategy) :
    (c.map d s = .error (.circuitTooLarge c.width d.size) ↔ d.size < c.width) ∧
      (∀ position name, c.map d s = .error (.unsupportedGate position name) ↔
        c.width ≤ d.size ∧ c.FirstUnsupported position name) ∧
      ((∃ mapped, c.map d s = .ok mapped) ↔
        c.width ≤ d.size ∧ ∀ g ∈ c.gates, ¬g.IsUnsupported) ∧
      (∀ e, c.map d s = .error e → e = .circuitTooLarge c.width d.size ∨
        ∃ position name, e = .unsupportedGate position name) ∧
      ∀ site : Nat → Nat, (∀ line < c.width, site line < d.size) →
        ∀ pair ∈ (Interactions.ofCircuit c).pairs,
          (∃ cost, d.table.cost (site pair.1) (site pair.2) = .ok cost) ∧
            ∃ r, d.table.route (site pair.1) (site pair.2) = .ok r := by
  have consistent := hd.isConsistent
  have lookups (site : Nat → Nat) (hsite : ∀ line < c.width, site line < d.size) (pair : Nat × Nat)
      (hpair : pair ∈ (Interactions.ofCircuit c).pairs) := consistent.lookups_ok valid hsite hpair
  by_cases large : d.size < c.width
  · have hmap := consistent.map_of_large large s
    exact ⟨by simp [hmap, large], by simp [hmap, large], by simp [hmap, large], by simp [hmap],
      lookups⟩
  · have fits : c.width ≤ d.size := Nat.not_lt.1 large
    by_cases unsupported : ∃ g ∈ c.gates, g.IsUnsupported
    · obtain ⟨position, name, first⟩ := Circuit.exists_firstUnsupported unsupported
      have hmap := consistent.map_of_firstUnsupported valid fits s first
      have only : ∀ j n, c.FirstUnsupported j n ↔ position = j ∧ name = n := by
        intro j n
        constructor
        · intro other
          have := consistent.map_of_firstUnsupported valid fits s other
          simpa [hmap] using this
        · rintro ⟨rfl, rfl⟩
          exact first
      exact ⟨by simp [hmap, large], by simp [hmap, fits, only], by simp [hmap, unsupported],
        by simp [hmap], lookups⟩
    · have supported : ∀ g ∈ c.gates, ¬g.IsUnsupported := by simpa using unsupported
      have none : ∀ j n, ¬c.FirstUnsupported j n := by
        rintro j n ⟨before, g, after, split, -, hg, -⟩
        exact supported g (by simp [split]) hg
      obtain ⟨mapped, hmap⟩ := consistent.map_of_supported valid fits s supported
      exact ⟨by simp [hmap, large], by simp [hmap, none], by simpa [hmap, fits] using supported,
        by simp [hmap], lookups⟩

/-- A controlled Hadamard is reported, although a gate that is known by its name only follows it. -/
theorem map_fails_exactly_twoQubits :
    let c : Circuit := ⟨"", [.unnamed, .unnamed],
      [.cnot 1 0, ⟨.hadamard, [1], [⟨0, true⟩]⟩, .custom "swap" [0]]⟩
    Device.twoQubits.IsObtained ∧ c.IsValid ∧
      c.map .twoQubits .exhaustive = .error (.unsupportedGate 1 "ch") := by
  intro c
  have valid : c.IsValid := by
    unfold Circuit.IsValid
    decide
  have first : c.FirstUnsupported 1 "ch" := by
    refine ⟨[.cnot 1 0], ⟨.hadamard, [1], [⟨0, true⟩]⟩, [.custom "swap" [0]], rfl, ?_,
      .controlled (by simp) (by simp), rfl, rfl⟩
    intro k hk unsupported
    obtain rfl := List.mem_singleton.1 hk
    exact Gate.isUnsupported_iff.1 unsupported (.cnot _ 0)
  have obtained := Device.isObtained_twoQubits
  exact ⟨obtained, valid,
    ((map_fails_exactly obtained valid .exhaustive).2.1 1 "ch").2 ⟨by decide, first⟩⟩

/-- On the long chain, built where arithmetic is not checked, a lookup fails instead. -/
theorem map_fails_longChain :
    ∃ d, Device.ofGraphWrapped (.chain 65536) = .ok d ∧ Circuit.oneCnot.IsValid ∧
      (∀ g ∈ Circuit.oneCnot.gates, ¬g.IsUnsupported) ∧ Circuit.oneCnot.width ≤ d.size ∧
      Circuit.oneCnot.map d .exhaustive = .error .outOfBounds := by
  have supported : ∀ g ∈ Circuit.oneCnot.gates, ¬g.IsUnsupported := fun g hg unsupported =>
    Gate.isUnsupported_iff.1 unsupported (Circuit.oneCnot_isSupported g hg)
  exact ⟨_, Device.ofGraph_longChain.2, Circuit.oneCnot_isValid, supported, by decide,
    bind_of_error Interactions.searchAll_longChain _⟩

end CnotRouting
