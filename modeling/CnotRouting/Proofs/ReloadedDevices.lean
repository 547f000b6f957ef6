import CnotRouting.Proofs.LoadedRoutes
import CnotRouting.Proofs.SavedDevices
import Mathlib.Data.List.Induction

/-!
# Reloaded devices

A device that is reloaded over and over is at any time the one that was loaded last, or the one at
the start as long as nothing has loaded. An input that does not load leaves no trace. Every device
that is met on the way is sound: its table holds for each pair of qubits a route on the edges of its
graph, which carries the ends of the CNOT to its one terminal step and back.
-/

namespace CnotRouting

/-- Whether a route runs on the qubits and edges of a graph, and carries the ends of the CNOT from
`v` to `w` to its one terminal step and home again. -/
structure Route.IsSound (g : CouplingGraph) (v w : Nat) (r : Route) : Prop where
  operands_lt : ∀ s ∈ r, ∀ q ∈ s.operands, q < g.size
  edges : ∀ s ∈ r, ∀ e ∈ s.edges, g.hasEdge e.1 e.2 = true
  splits : ∃ before t after, r.SplitsAt (v, w) (v, w) before t after
  returns : r.relabel (v, w) = (v, w)

theorem Route.Serves.isSound {g : CouplingGraph} {v w : Nat} {r : Route} (h : r.Serves g v w) :
    r.IsSound g v w := by
  obtain ⟨before, t, after, split⟩ := realizes_iff_splitsAt.1 h.realizes
  exact ⟨fun s hs => (h.native s hs).operands_lt, fun s hs => (h.native s hs).edges,
    ⟨before, t, after, split⟩, split.relabel_eq⟩

namespace Device

/-- Whether graph and table count the same qubits, not too many of them, the matrix is complete with
an empty diagonal, and the table has a sound route for every pair of distinct qubits, with the sum of
its step costs, and an empty route of cost 0 for every other pair. -/
structure IsSound (d : Device) : Prop where
  table_size : d.table.size = d.size
  size_le : d.size ≤ sizeLimit
  valid : d.graph.IsValid
  diagonal : ∀ v < d.size, d.table.route v v = .ok [] ∧ d.table.cost v v = .ok 0
  pairs : ∀ v < d.size, ∀ w < d.size, v ≠ w → ∃ r : Route,
    d.table.route v w = .ok r ∧ d.table.cost v w = .ok (totalCost (r.map Step.cost)) ∧
      r.IsSound d.graph v w

theorem IsSavable.isSound {d : Device} (h : d.IsSavable) : d.IsSound where
  table_size := h.consistent.size_eq
  size_le := h.size_le
  valid := h.consistent.valid
  diagonal := by
    intro v hv
    obtain ⟨r, hr, entry⟩ := h.consistent.route_eq_ok hv hv
    obtain rfl : r = [] := by simpa [IsEntry] using entry
    exact ⟨hr, h.consistent.cost_eq_ok hr⟩
  pairs := by
    intro v hv w hw hvw
    obtain ⟨r, hr, serves⟩ := h.consistent.serves hv hw hvw
    exact ⟨r, hr, h.consistent.cost_eq_ok hr, serves.isSound⟩

/-- The devices that a run of reloads starts from: those built from a valid graph within the size
limit, and those loaded from bytes. -/
inductive IsInitial : Device → Prop where
  | built {g : CouplingGraph} {d : Device} (valid : g.IsValid) (size_le : g.size ≤ sizeLimit)
      (h : ofGraph g = .ok d) : IsInitial d
  | loaded {bytes : ByteArray} {d : Device} (h : load bytes = .ok d) : IsInitial d

theorem IsInitial.isSavable {d : Device} (h : d.IsInitial) : d.IsSavable := by
  cases h with
  | built valid size_le h => exact isSavable_of_ofGraph valid size_le h
  | loaded h => exact isSavable_of_load h

/-- The device after it has been reloaded with each of the inputs in turn. -/
def reloadAll (d : Device) (inputs : List ByteArray) : Device := inputs.foldl reload d

/-- Whether a device is the one that the last of the inputs that loads holds, or the one at the
start if none of them loads. -/
inductive IsLatest (start : Device) : List ByteArray → Device → Prop where
  | kept {inputs : List ByteArray} (refused : ∀ bytes ∈ inputs, ∃ e, load bytes = .error e) :
      IsLatest start inputs start
  | loaded {before after : List ByteArray} {bytes : ByteArray} {d : Device}
      (h : load bytes = .ok d) (refused : ∀ later ∈ after, ∃ e, load later = .error e) :
      IsLatest start (before ++ bytes :: after) d

variable {start d : Device}

theorem reload_of_load_eq_ok {loaded : Device} {bytes : ByteArray} (h : load bytes = .ok loaded) :
    d.reload bytes = loaded := by
  rw [reload, h]

theorem reload_of_load_eq_error {e : RoutingError} {bytes : ByteArray}
    (h : load bytes = .error e) : d.reload bytes = d := by
  rw [reload, h]

/-- What a reload keeps of a run. -/
theorem IsLatest.reload {inputs : List ByteArray} (h : IsLatest start inputs d)
    (bytes : ByteArray) : IsLatest start (inputs ++ [bytes]) (d.reload bytes) := by
  cases hload : load bytes with
  | ok loaded =>
    rw [reload_of_load_eq_ok hload]
    exact .loaded hload (by simp)
  | error e =>
    have refuses : ∀ {more : List ByteArray}, (∀ later ∈ more, ∃ e, load later = .error e) →
        ∀ later ∈ more ++ [bytes], ∃ e, load later = .error e := by
      intro more refused later hlater
      rcases List.mem_append.1 hlater with hlater | hlater
      · exact refused later hlater
      · obtain rfl := List.mem_singleton.1 hlater
        exact ⟨e, hload⟩
    rw [reload_of_load_eq_error hload]
    cases h with
    | kept refused => exact .kept (refuses refused)
    | loaded h refused =>
      rw [List.append_assoc, List.cons_append]
      exact .loaded h (refuses refused)

theorem isLatest_reloadAll (start : Device) (inputs : List ByteArray) :
    IsLatest start inputs (start.reloadAll inputs) := by
  induction inputs using List.reverseRecOn with
  | nil => exact .kept (by simp)
  | append_singleton inputs bytes ih =>
    rw [reloadAll, List.foldl_append]
    exact ih.reload bytes

theorem IsLatest.isSavable {inputs : List ByteArray} (h : IsLatest start inputs d)
    (initial : start.IsInitial) : d.IsSavable := by
  cases h with
  | kept _ => exact initial.isSavable
  | loaded h _ => exact isSavable_of_load h

end Device

/-- After each of a run of reloads, whatever their inputs, the device is the one that was loaded last
or the one at the start, and it is sound. -/
theorem reloads_sound {start : Device} (initial : start.IsInitial) (inputs : List ByteArray)
    (calls : Nat) :
    Device.IsLatest start (inputs.take calls) (start.reloadAll (inputs.take calls)) ∧
      (start.reloadAll (inputs.take calls)).IsSound := by
  have latest := Device.isLatest_reloadAll start (inputs.take calls)
  exact ⟨latest, (latest.isSavable initial).isSound⟩

/-- A run over the text of a device, a text that breaks off, and bytes that are no text. It ends with
the device of the first text. -/
theorem reloads_sound_chain_three :
    let inputs := [chainText.toUTF8, "3\n- X".toUTF8, ⟨#[0xFF]⟩]
    Device.twoQubits.IsInitial ∧ Device.load chainText.toUTF8 = .ok .chainThree ∧
      Device.twoQubits.reloadAll inputs = .chainThree ∧
      Device.IsLatest .twoQubits inputs .chainThree ∧ Device.chainThree.IsSound := by
  intro inputs
  have initial : Device.twoQubits.IsInitial :=
    .built (CouplingGraph.isValid_chain 2) (by decide) Device.ofGraph_chain_two
  have loads : Device.load chainText.toUTF8 = .ok .chainThree := by
    rw [Device.load_toUTF8, Device.parse_chainText]
    rfl
  have refused : Device.load "3\n- X".toUTF8 = .error (.format ⟨2, .rowLength .graph 2 3⟩) := by
    rw [Device.load_toUTF8]
    decide +kernel
  have ends : Device.twoQubits.reloadAll inputs = .chainThree := by
    rw [Device.reloadAll, List.foldl_cons, Device.reload_of_load_eq_ok loads, List.foldl_cons,
      Device.reload_of_load_eq_error refused, List.foldl_cons]
    exact Device.reload_of_load_eq_error (e := .notText) (by decide +kernel)
  obtain ⟨latest, sound⟩ := reloads_sound initial inputs 3
  rw [show inputs.take 3 = inputs from rfl, ends] at latest sound
  exact ⟨initial, loads, ends, latest, sound⟩

end CnotRouting
