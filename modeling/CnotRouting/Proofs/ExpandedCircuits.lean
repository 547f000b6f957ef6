import CnotRouting.CircuitExpansion
import CnotRouting.Proofs.PlacedCircuits
import CnotRouting.Proofs.ReadDevices

/-!
# Expanded circuits

The gates that have an expansion are those on one line, apart from custom ones, and the CNOTs of
either polarity. On a consistent device every CNOT is expanded into gates of the hardware, and into
as many of them as its cost tells.
-/

namespace CnotRouting

/-- The gates that have an expansion. -/
inductive Gate.IsSupported : Gate → Prop where
  | plain {kind : GateKind} {t : Nat} (h : ∀ name, kind ≠ .custom name) :
      IsSupported ⟨kind, [t], []⟩
  | cnot (c : Control) (t : Nat) : IsSupported (.toffoli [c] t)

/-- The gates that the hardware of a coupling graph offers. -/
inductive Gate.CompliesWith (g : CouplingGraph) : Gate → Prop where
  | plain {kind : GateKind} {t : Nat} (h : ∀ name, kind ≠ .custom name) :
      CompliesWith g ⟨kind, [t], []⟩
  | cnot {c t : Nat} (h : g.hasEdge c t = true) : CompliesWith g (.cnot c t)

/-- Whether this is a CNOT that fires on 0. -/
def Gate.isCnotOnZero (g : Gate) : Bool :=
  match g.kind, g.controls with
  | .toffoli, [c] => !c.positive
  | _, _ => false

/-- The NOTs around the expansion of a CNOT that fires on 0. -/
def Control.guards (c : Control) : List Gate := if c.positive then [] else [Gate.not c.line]

theorem Control.mem_guarded {c : Control} {gates : List Gate} {k : Gate}
    (hk : k ∈ c.guards ++ gates ++ c.guards) : k = .not c.line ∨ k ∈ gates := by
  have guard : k ∈ c.guards → k = .not c.line := by
    intro hk
    rw [guards] at hk
    split at hk
    · cases hk
    · exact List.mem_singleton.1 hk
  rcases List.mem_append.1 hk with hk | hk
  · rcases List.mem_append.1 hk with hk | hk
    · exact .inl (guard hk)
    · exact .inr hk
  · exact .inl (guard hk)

theorem Gate.not_compliesWith (g : CouplingGraph) (q : Nat) : (Gate.not q).CompliesWith g :=
  .plain fun name h => by cases h

theorem Gate.hadamard_compliesWith (g : CouplingGraph) (q : Nat) :
    (Gate.hadamard q).CompliesWith g :=
  .plain fun name h => by cases h

theorem Gate.IsSupported.relabel {g : Gate} (h : g.IsSupported) (f : Nat → Nat) :
    (g.relabel f).IsSupported := by
  cases h with
  | plain h => exact .plain h
  | cnot c t => exact .cnot ⟨f c.line, c.positive⟩ (f t)

namespace Device

/-- What the expansion of a gate is: the gate itself, or the lowered route of its pair between the
guards of its control. -/
inductive Expands (d : Device) : Gate → List Gate → Prop where
  | plain {kind : GateKind} {t : Nat} (h : ∀ name, kind ≠ .custom name) :
      Expands d ⟨kind, [t], []⟩ [⟨kind, [t], []⟩]
  | cnot {c : Control} {t : Nat} {r : Route} (h : d.table.route c.line t = .ok r) :
      Expands d (.toffoli [c] t) (c.guards ++ r.lower ++ c.guards)

variable {d : Device}

theorem expansion_eq_ok_iff {position : Nat} {g : Gate} {part : List Gate} :
    d.expansion position g = .ok part ↔ d.Expands g part := by
  obtain ⟨kind, targets, controls⟩ := g
  constructor
  · intro h
    rw [expansion] at h
    split at h
    · rename_i t c htargets hcontrols hkind
      simp only at htargets hcontrols hkind
      obtain ⟨r, hr, h⟩ := bind_eq_ok_iff.1 h
      cases h
      rw [htargets, hcontrols, hkind]
      exact .cnot hr
    · cases h
    · rename_i t htargets hcontrols noCustom
      simp only at htargets hcontrols noCustom
      cases h
      rw [htargets, hcontrols]
      exact .plain noCustom
    · cases h
  · intro h
    cases h with
    | plain h => cases kind <;> simp_all [expansion]
    | cnot h =>
      apply bind_eq_ok_iff.2
      exact ⟨_, h, rfl⟩

theorem checkedExpansion_eq_ok_iff {position : Nat} {g : Gate} {part : List Gate} :
    d.checkedExpansion position g = .ok part ↔
      d.Expands g part ∧ ∀ k ∈ part, k.fault? d.size = none := by
  rw [checkedExpansion]
  rw [bind_eq_ok_iff]
  constructor
  · rintro ⟨gates, hgates, h⟩
    split at h
    · cases h
    · rename_i accepted
      cases h
      exact ⟨expansion_eq_ok_iff.1 hgates, List.findSome?_eq_none_iff.1 accepted⟩
  · rintro ⟨hexpands, accepted⟩
    refine ⟨part, expansion_eq_ok_iff.2 hexpands, ?_⟩
    rw [List.findSome?_eq_none_iff.2 accepted]
    rfl

end Device

/-- An expanded circuit has the lines of the device and the expansions of the gates, one after the
other. -/
theorem Circuit.expand_eq_ok_iff {c out : Circuit} {d : Device} : c.expand d = .ok out ↔
    c.width ≤ d.size ∧ ∃ parts,
      List.Forall₂ (fun g part => d.Expands g part ∧ ∀ k ∈ part, k.fault? d.size = none)
        c.gates parts ∧ out = { c.padTo d.size with gates := parts.flatten } := by
  have forgetful : ∀ parts,
      (c.gates.zipIdx.mapM fun placed => d.checkedExpansion placed.2 placed.1) = .ok parts ↔
        List.Forall₂ (fun g part => d.Expands g part ∧ ∀ k ∈ part, k.fault? d.size = none)
          c.gates parts := by
    intro parts
    rw [mapM_eq_ok_iff]
    conv_rhs => rw [← List.zipIdx_map_fst 0 c.gates, List.forall₂_map_left_iff]
    simp only [Device.checkedExpansion_eq_ok_iff]
  rw [expand]
  split
  · rename_i tooLarge
    simp [tooLarge]
  · rename_i fits
    rw [bind_eq_ok_iff]
    constructor
    · rintro ⟨parts, hparts, h⟩
      cases h
      exact ⟨by omega, parts, (forgetful parts).1 hparts, rfl⟩
    · rintro ⟨-, parts, hparts, rfl⟩
      exact ⟨parts, (forgetful parts).2 hparts, rfl⟩

/-! ### Hardware compliance -/

namespace Device

variable {d : Device}

/-- Gates are expanded into gates of the hardware if every route of the table may stand there. -/
theorem Expands.complies_of_isEntry {g : Gate} {part : List Gate} (hx : d.Expands g part)
    (entries : ∀ v w r, d.table.route v w = .ok r → IsEntry d.graph (v, w) r) {k : Gate}
    (hk : k ∈ part) : k.CompliesWith d.graph := by
  cases hx with
  | plain hkind =>
    obtain rfl := List.mem_singleton.1 hk
    exact .plain hkind
  | @cnot c t r hr =>
    rcases Control.mem_guarded hk with rfl | hk
    · exact Gate.not_compliesWith d.graph c.line
    · have hentry := entries _ _ _ hr
      rw [IsEntry] at hentry
      split at hentry
      · rw [hentry] at hk
        cases hk
      · rcases hentry.mem_lower hk with ⟨q, -, rfl⟩ | ⟨v, w, edge, rfl⟩
        · exact Gate.hadamard_compliesWith d.graph q
        · exact .cnot edge

/-- Every route of a device that was obtained in any way is the empty one of a diagonal pair or
serves its pair. -/
theorem IsObtainedFrom.isEntry (hd : d.IsObtainedFrom IsBuilt) {v w : Nat} {r : Route}
    (hr : d.table.route v w = .ok r) : IsEntry d.graph (v, w) r := by
  induction hd generalizing v w r with
  | given built =>
    obtain ⟨g, built | built⟩ := built
    · exact isEntry_of_ofGraphBy built hr
    · exact isEntry_of_ofGraphBy built hr
  | loaded h => exact ((isConsistent_of_load h).1.of_route hr).2.2
  | reloaded bytes _ ih =>
    rw [reload] at hr ⊢
    split at hr
    · rename_i loaded
      exact ((isConsistent_of_load loaded).1.of_route hr).2.2
    · exact ih hr

end Device

/-- If every route serves its pair, an expanded circuit consists of gates of the hardware on all
qubits of the device. -/
theorem Circuit.compliesWith_of_expand {d : Device}
    (entries : ∀ v w r, d.table.route v w = .ok r → IsEntry d.graph (v, w) r) {c out : Circuit}
    (expand : c.expand d = .ok out) : out.width = d.size ∧
      ∀ k ∈ out.gates, k.fault? d.size = none ∧ k.CompliesWith d.graph := by
  obtain ⟨fits, parts, hparts, rfl⟩ := expand_eq_ok_iff.1 expand
  refine ⟨width_padTo fits, fun k hk => ?_⟩
  obtain ⟨part, hpart, hk⟩ := List.mem_flatten.1 hk
  obtain ⟨i, hi⟩ := List.mem_iff_getElem?.1 hpart
  obtain ⟨_, -, expands, accepted⟩ := forall₂_getElem? hparts.flip hi
  exact ⟨accepted k hk, expands.complies_of_isEntry entries hk⟩

/-- Whatever circuit is expanded, and however the device was obtained, the expanded circuit has the
lines of the device and complies with its hardware. The device may be built from any graph, its
arithmetic checked or not, read from a text, and reloaded any number of times. -/
theorem complies_of_expand {d : Device} (hd : d.IsObtainedFrom Device.IsBuilt) {c out : Circuit}
    (h : c.expand d = .ok out) :
    out.width = d.size ∧ ∀ g ∈ out.gates, g.CompliesWith d.graph := by
  obtain ⟨width, each⟩ := Circuit.compliesWith_of_expand (fun _ _ _ hr => hd.isEntry hr) h
  exact ⟨width, fun g hg => (each g hg).2⟩

theorem complies_of_expand_twoQubits :
    let c : Circuit := ⟨"", [.unnamed], [.hadamard 0, .cnotOnZero 1 0]⟩
    let out : Circuit := ⟨"", [.unnamed, .idle 1], [.hadamard 0, .not 1, .hadamard 1, .hadamard 0,
      .cnot 0 1, .hadamard 1, .hadamard 0, .not 1]⟩
    c.expand .twoQubits = .ok out ∧ out.width = Device.twoQubits.size ∧
      ∀ g ∈ out.gates, g.CompliesWith Device.twoQubits.graph := by
  intro c out
  have expanded : c.expand .twoQubits = .ok out := rfl
  have obtained : Device.twoQubits.IsObtainedFrom Device.IsBuilt :=
    .given ⟨_, .inl Device.ofGraph_chain_two⟩
  exact ⟨expanded, complies_of_expand obtained expanded⟩

end CnotRouting
