import CnotRouting.Proofs.BuiltCircuits
import CnotRouting.Proofs.FaithfulFormats

/-!
# Written circuits

A circuit is written as the JSON text of its record, which leaves out the controls of a gate that
has none. A faithful format reads the record back from the text, and the circuit is then built anew.
A circuit that was built by calls comes back as it was, for its lines have the numbers that they get
again, and it accepts its own gates.
-/

namespace CnotRouting

/-! ### Controls in a record -/

/-- The controls stand in the record if there are any. -/
theorem Gate.fieldOf?_controls (g : Gate) :
    g.record.fieldOf? recordFields "controls" =
      if g.controls = [] then none else some (Json.ofList Control.record g.controls) := by
  by_cases none : g.controls = [] <;>
    simp [record, Json.fieldOf?, Json.field?, List.lookup_cons, none]

/-- A gate without controls is written without their field. -/
example : (Gate.hadamard 0).record.text = "\x7b\"kind\":\"Hadamard\",\"targets\":[0]\x7d" := by
  decide +kernel

/-! ### Circuits built from texts -/

theorem Gate.IsRefusedFor.not_suits {g : Gate} {width : Nat} {fault : GateFault}
    (h : g.IsRefusedFor width fault) : ¬g.Suits width := by
  intro suits
  cases h with
  | noTarget none => exact suits.target none
  | @lineNotFound before after q target lines distinct found absent =>
    have present : q < width := suits.found q (by simp [lines])
    omega
  | @lineRepeated before after q target lines distinct found present again =>
    have nodup := suits.distinct
    rw [lines] at nodup
    exact (List.nodup_append.1 nodup).2.2 q again q List.mem_cons_self rfl

/-- The record with its lines numbered by their positions. -/
def CircuitRecord.renumbered (r : CircuitRecord) : CircuitRecord :=
  { r with lines := r.lines.zipIdx.map fun (numbered, k) => (k, numbered.2) }

namespace CircuitLog

/-- The record of a circuit, with the numbers that its lines were given. -/
def record (log : CircuitLog) : CircuitRecord := ⟨log.name, log.lines, log.gates.map Prod.snd⟩

/-- The circuit that is built from a text, or the fault of the gate that is refused. There is
nothing to build if the text does not hold a record. -/
def read? (f : CircuitFormat) (text : String) : Option (Except GateFault CircuitLog) :=
  (f.read? text).map ofRecord

theorem IsSound.record_circuit {log : CircuitLog} (h : log.IsSound) :
    log.circuit.record = log.record := by
  have lines := h.lines_record
  simp only [Circuit.record, circuit, record] at lines ⊢
  rw [lines]

variable {r : CircuitRecord}

theorem exists_ofRecord {c : Circuit} (h : r.circuit = .ok c) :
    ∃ log, ofRecord r = .ok log ∧ log.circuit = c ∧ log.record = c.record := by
  obtain ⟨log, run, rfl⟩ := map_eq_ok_iff.1 ((circuit_ofRecord r).trans h)
  have sound : log.IsSound := ((isSound_empty _).addLines _).extend run
  exact ⟨log, run, rfl, sound.record_circuit.symm⟩

end CircuitLog

namespace CircuitRecord

/-- What becomes of a record. If every gate suits its lines, a circuit with the same name, lines and
gates is built, whose lines are numbered anew. If not, the first gate that does not is refused. -/
inductive IsBuilt (r : CircuitRecord) : Except GateFault CircuitLog → Prop where
  | built {log : CircuitLog} (suited : ∀ g ∈ r.gates, g.Suits r.lines.length)
      (record : log.record = r.renumbered) : IsBuilt r (.ok log)
  | refused {before after : List Gate} {g : Gate} {fault : GateFault}
      (gates : r.gates = before ++ g :: after) (suited : ∀ b ∈ before, b.Suits r.lines.length)
      (refused : g.IsRefusedFor r.lines.length fault) : IsBuilt r (.error fault)

variable {r : CircuitRecord}

theorem IsBuilt.succeeds_iff {outcome : Except GateFault CircuitLog} (h : r.IsBuilt outcome) :
    (∃ log, outcome = .ok log) ↔ ∀ g ∈ r.gates, g.Suits r.lines.length := by
  cases h with
  | @built log suited record => exact iff_of_true ⟨log, rfl⟩ suited
  | @refused before after g fault gates suited refused =>
    refine iff_of_false (by simp) fun all => refused.not_suits (all g ?_)
    simp [gates]

/-- The circuit of a record is that of its lines and gates, unless a gate is at fault. -/
theorem circuit_eq (r : CircuitRecord) :
    r.circuit = match r.gates.findSome? (Gate.fault? r.lines.length) with
      | some fault => .error fault
      | none => .ok ⟨r.name, r.lines.map Prod.snd, r.gates⟩ := by
  rw [circuit, Circuit.extend, Circuit.width, List.length_map]
  rfl

theorem record_described (r : CircuitRecord) :
    (⟨r.name, r.lines.map Prod.snd, r.gates⟩ : Circuit).record = r.renumbered := by
  simp [Circuit.record, renumbered, List.zipIdx_map]

theorem isBuilt_ofRecord (r : CircuitRecord) : r.IsBuilt (CircuitLog.ofRecord r) := by
  have circuit := r.circuit_eq
  cases first : r.gates.findSome? (Gate.fault? r.lines.length) with
  | none =>
    rw [first] at circuit
    obtain ⟨log, run, -, record⟩ := CircuitLog.exists_ofRecord circuit
    have suited : ∀ g ∈ r.gates, g.Suits r.lines.length := fun g hg =>
      Gate.fault?_eq_none_iff_suits.1 (List.findSome?_eq_none_iff.1 first g hg)
    exact run ▸ .built suited (record.trans r.record_described)
  | some fault =>
    rw [first] at circuit
    obtain ⟨before, g, after, gates, faulty, accepted⟩ := List.findSome?_eq_some_iff.1 first
    have suited : ∀ b ∈ before, b.Suits r.lines.length := fun b hb =>
      Gate.fault?_eq_none_iff_suits.1 (accepted b hb)
    rw [map_eq_error_iff.1 ((CircuitLog.circuit_ofRecord r).trans circuit)]
    exact .refused gates suited (Gate.isRefusedFor_of_fault? faulty)

end CircuitRecord

/-- The numbers in a valid circuit are in range if it has not too many lines. -/
theorem Circuit.IsValid.isRecordable_record {f : CircuitFormat} {c : Circuit} (valid : c.IsValid)
    (narrow : c.width ≤ wordBound) (kinds : ∀ g ∈ c.gates, g.kind.IsRecordable f) :
    c.record.IsRecordable f := by
  constructor
  · intro numbered hn
    obtain ⟨⟨l, k⟩, hk, rfl⟩ := List.mem_map.1 hn
    have position : k < c.width := List.snd_lt_of_mem_zipIdx hk
    exact Nat.lt_of_lt_of_le position narrow
  · intro g hg
    have suits := Gate.fault?_eq_none_iff_suits.1 (valid g hg)
    exact ⟨kinds g hg, fun q hq => Nat.lt_of_lt_of_le (suits.found q hq) narrow⟩

/-- A circuit is built of the record that a text holds exactly if every gate suits the recorded
lines. It has the names and gates of the record, and its lines are numbered from 0. If a gate does
not suit the lines, the first such gate is refused. A record is read back from its text, from which
the controls of a gate are left out if there are none. So a circuit that is built by any calls is
read back as it was, down to the numbers of its lines. -/
theorem written_circuit_is_rebuilt (f : CircuitFormat) (faithful : f.IsFaithful) :
    (∀ (text : String) (r : CircuitRecord), f.read? text = some r →
      ∃ outcome, CircuitLog.read? f text = some outcome ∧
        outcome.map CircuitLog.circuit = r.circuit ∧
        ((∃ log, outcome = .ok log) ↔ ∀ g ∈ r.gates, g.Suits r.lines.length) ∧
        r.IsBuilt outcome) ∧
    (∀ r : CircuitRecord, r.IsRecordable f → f.read? (f.write r.toJson) = some r) ∧
    (∀ g : Gate, g.record.fieldOf? Gate.recordFields "controls" =
      if g.controls = [] then none else some (Json.ofList Control.record g.controls)) ∧
    ∀ calls : List BuilderCall,
      let log := (CircuitLog.empty "").after calls
      let c := (Circuit.empty "").after calls
      c.width ≤ wordBound → (∀ g ∈ c.gates, g.kind.IsRecordable f) →
        log.circuit = c ∧ log.record = c.record ∧
        ∃ back, CircuitLog.read? f (f.write c.record.toJson) = some (.ok back) ∧
          back.circuit = c ∧ back.record = log.record := by
  refine ⟨?_, fun r => faithful.read?_write, Gate.fieldOf?_controls, ?_⟩
  · intro text r held
    have built := r.isBuilt_ofRecord
    refine ⟨CircuitLog.ofRecord r, ?_, CircuitLog.circuit_ofRecord r, built.succeeds_iff, built⟩
    rw [CircuitLog.read?, held, Option.map_some]
  · intro calls log c narrow kinds
    have circuit : log.circuit = c := CircuitLog.circuit_after (.empty "") calls
    have sound : log.IsSound := (CircuitLog.isSound_empty "").after calls
    have valid : c.IsValid := Circuit.isValid_after calls
    have record : log.record = c.record := by rw [← circuit, sound.record_circuit]
    have held := faithful.read?_write (valid.isRecordable_record narrow kinds)
    obtain ⟨back, run, same, numbered⟩ :=
      CircuitLog.exists_ofRecord (CircuitRecord.circuit_record valid)
    refine ⟨circuit, record, back, ?_, same, numbered.trans record.symm⟩
    rw [CircuitLog.read?, held, Option.map_some, run]

/-- A circuit with a gate of every kind comes back from its compact text. A record is refused for its
second gate, for its one line is line 0, whatever number it is recorded under. -/
theorem written_circuit_is_rebuilt_twoQubits :
    let calls : List BuilderCall := [.new "pair", .addLine (.named "a" "x"), .addLine .unnamed,
      .append (.hadamard 0), .append (.rotation .y 0.5 1), .append (.cnotOnZero 1 0),
      .append (.eighthAdjoint 1), .append (.custom "swap" [0, 1]), .append (.cnot 0 0)]
    let c := (Circuit.empty "").after calls
    let refused : CircuitRecord := ⟨"line", [(7, .unnamed)], [.not 0, .cnot 0 7, .not 5]⟩
    c.gates.length = 5 ∧
      (∃ back, CircuitLog.read? .compact c.record.toJson.text = some (.ok back) ∧
        back.circuit = c ∧ back.lines = [(0, .named "a" "x"), (1, .unnamed)]) ∧
      CircuitLog.read? .compact refused.toJson.text = some (.error (.lineNotFound 7 "cx")) := by
  intro calls c refused
  have gates : c.gates = [.hadamard 0, .rotation .y 0.5 1, .cnotOnZero 1 0, .eighthAdjoint 1,
      .custom "swap" [0, 1]] := by rfl
  have kept : CircuitFormat.compact.Keeps 0.5 := ⟨by decide, by rfl⟩
  have kinds : ∀ g ∈ c.gates, g.kind.IsRecordable .compact := by
    have root : 4 < wordBound := by decide
    rw [gates]
    simp only [List.forall_mem_cons]
    exact ⟨trivial, kept, trivial, root, trivial, nofun⟩
  have recordable : refused.IsRecordable .compact := by
    constructor
    · decide
    · simp only [refused, List.forall_mem_cons]
      exact ⟨⟨trivial, by decide⟩, ⟨trivial, by decide⟩, ⟨trivial, by decide⟩, nofun⟩
  obtain ⟨built, held, -, rebuilt⟩ :=
    written_circuit_is_rebuilt .compact CircuitFormat.isFaithful_compact
  obtain ⟨-, -, back, run, same, record⟩ := rebuilt calls (by decide) kinds
  obtain ⟨outcome, answer, circuit, -⟩ := built _ refused (held refused recordable)
  refine ⟨by rw [gates]; rfl, ⟨back, run, same, congrArg CircuitRecord.lines record⟩, ?_⟩
  have refusal : refused.circuit = .error (.lineNotFound 7 "cx") := by rfl
  rw [refusal] at circuit
  cases outcome <;> cases circuit
  exact answer

end CnotRouting
