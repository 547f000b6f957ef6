import CnotRouting.CircuitFormats
import CnotRouting.Proofs.WrittenJson

/-!
# Faithful formats

What is asked of a format is kept apart from what follows for circuits. A faithful format reads back
the text of a record whose numbers are in range and whose angles it keeps. It reads an alternative,
a control and a numbered line from their records, and a gate and a whole record from objects of
their fields, provided that it reads the parts; a gate may leave out its controls. It follows that a
record is read back from its text. The compact format is faithful.
-/

namespace CnotRouting

/-! ### Recordable circuits -/

/-- Whether an angle is finite and read back from the number that is written for it. -/
def CircuitFormat.Keeps (f : CircuitFormat) (x : Float) : Prop :=
  x.isFinite = true ∧ f.number? (f.write (.float x)) = some x

/-- Whether the number of a kind can be recorded: a root is below the bound, an angle is kept. -/
def GateKind.IsRecordable (f : CircuitFormat) : GateKind → Prop
  | .pauli _ root _ => root < wordBound
  | .rotation _ angle => f.Keeps angle
  | _ => True

/-- A gate whose numbers can be recorded. -/
structure Gate.IsRecordable (f : CircuitFormat) (g : Gate) : Prop where
  kind : g.kind.IsRecordable f
  lines : ∀ q ∈ g.lines, q < wordBound

/-- A record whose line numbers are below the bound and whose gates can be recorded. The gates may
name any lines. -/
structure CircuitRecord.IsRecordable (f : CircuitFormat) (r : CircuitRecord) : Prop where
  numbers : ∀ numbered ∈ r.lines, numbered.1 < wordBound
  gates : ∀ g ∈ r.gates, g.IsRecordable f

/-! ### The laws of a format -/

namespace CircuitFormat

/-- What a format reads from the records of circuits and of their parts. -/
structure IsFaithful (f : CircuitFormat) : Prop where
  parse?_write {r : CircuitRecord} (recordable : r.IsRecordable f) :
    f.parse? (f.write r.toJson) = some r.toJson
  kind?_record {kind : GateKind} (recordable : kind.IsRecordable f) :
    f.kind? kind.record = some kind
  control?_record {c : Control} (inRange : c.line < wordBound) : f.control? c.record = some c
  line?_record {numbered : Nat × Line} (inRange : numbered.1 < wordBound) :
    f.line? (Line.record numbered) = some numbered
  gate?_obj {g : Gate} (kind : f.kind? g.kind.record = some g.kind)
    (targets : ∀ q ∈ g.targets, q < wordBound)
    (controls : ∀ c ∈ g.controls, f.control? c.record = some c) :
    f.gate? (.obj [("kind", g.kind.record), ("targets", Json.ofList .nat g.targets),
      ("controls", Json.ofList Control.record g.controls)]) = some g
  /-- Controls that are left out are an empty list. -/
  gate?_obj_of_missing {g : Gate} (kind : f.kind? g.kind.record = some g.kind)
    (targets : ∀ q ∈ g.targets, q < wordBound) (none : g.controls = []) :
    f.gate? (.obj [("kind", g.kind.record), ("targets", Json.ofList .nat g.targets)]) = some g
  record?_obj {r : CircuitRecord}
    (lines : ∀ numbered ∈ r.lines, f.line? (Line.record numbered) = some numbered)
    (gates : ∀ g ∈ r.gates, f.gate? g.record = some g) :
    f.record? (.obj [("name", .str r.name), ("qubits", Json.ofList Line.record r.lines),
      ("gates", Json.ofList Gate.record r.gates)]) = some r

namespace IsFaithful

variable {f : CircuitFormat} (faithful : f.IsFaithful)

include faithful

theorem gate?_record {g : Gate} (h : g.IsRecordable f) : f.gate? g.record = some g := by
  have kind := faithful.kind?_record h.kind
  have targets : ∀ q ∈ g.targets, q < wordBound := fun q hq =>
    h.lines q (List.mem_append_right _ hq)
  have controls : ∀ c ∈ g.controls, f.control? c.record = some c := fun c hc =>
    faithful.control?_record (h.lines c.line (List.mem_append_left _ (List.mem_map_of_mem hc)))
  by_cases none : g.controls = []
  · simpa [Gate.record, none] using faithful.gate?_obj_of_missing kind targets none
  · simpa [Gate.record, none] using faithful.gate?_obj kind targets controls

theorem record?_toJson {r : CircuitRecord} (h : r.IsRecordable f) : f.record? r.toJson = some r :=
  faithful.record?_obj (fun numbered hn => faithful.line?_record (h.numbers numbered hn))
    fun g hg => faithful.gate?_record (h.gates g hg)

/-- A record is read back from its text. -/
theorem read?_write {r : CircuitRecord} (h : r.IsRecordable f) :
    f.read? (f.write r.toJson) = some r := by
  rw [read?, faithful.parse?_write h, Option.bind_some, faithful.record?_toJson h]

end IsFaithful

end CircuitFormat

/-! ### Parts of a record read from their values -/

namespace Json

variable {α : Type} {write : α → Json} {read : Json → Option α}

theorem list?_ofList {items : List α} (h : ∀ a ∈ items, read (write a) = some a) :
    list? read (ofList write items) = some items := by
  have each : (items.map write).mapM read = some items := by
    induction items with
    | nil => rfl
    | cons a items ih =>
      obtain ⟨ha, hitems⟩ := List.forall_mem_cons.1 h
      rw [List.map_cons, List.mapM_cons, ha, ih hitems]
      rfl
  exact each

theorem optional?_ofOption_str (s : Option String) :
    optional? string? (ofOption .str s) = some s := by
  cases s <;> rfl

end Json

theorem GateKind.ofRecord?_record {kind : GateKind} {f : CircuitFormat}
    (h : kind.IsRecordable f) : ofRecord? kind.record = some kind := by
  cases kind with
  | toffoli => rfl
  | hadamard => rfl
  | pauli axis root adjoint =>
    have hroot := Json.natBelow?_nat (show root < wordBound from h)
    simp [record, ofRecord?, Json.alternative?, Json.fieldOf?, Json.field?, List.lookup_cons, hroot]
  | rotation axis angle =>
    simp [record, ofRecord?, Json.alternative?, Json.namedFieldOf?, Json.field?, List.lookup_cons]
  | custom name => rfl

theorem Control.ofRecord?_record {c : Control} (h : c.line < wordBound) :
    ofRecord? c.record = some c := by
  simp [record, ofRecord?, Json.fieldOf?, Json.field?, List.lookup_cons, Json.natBelow?_nat h]

theorem Line.ofRecord?_record {numbered : Nat × Line} (h : numbered.1 < wordBound) :
    ofRecord? (record numbered) = some numbered := by
  simp [record, ofRecord?, Json.fieldOf?, Json.nullableFieldOf?, Json.field?, List.lookup_cons,
    Json.natBelow?_nat h, Json.optional?_ofOption_str]

namespace Gate

variable {g : Gate} (kind : GateKind.ofRecord? g.kind.record = some g.kind)
  (targets : ∀ q ∈ g.targets, q < wordBound)

include kind targets

theorem ofRecord?_obj (controls : ∀ c ∈ g.controls, Control.ofRecord? c.record = some c) :
    ofRecord? (.obj [("kind", g.kind.record), ("targets", Json.ofList .nat g.targets),
      ("controls", Json.ofList Control.record g.controls)]) = some g := by
  have targets := Json.list?_ofList fun q hq => Json.natBelow?_nat (targets q hq)
  have controls := Json.list?_ofList controls
  simp [ofRecord?, Json.fieldOf?, Json.lastFieldOf?, Json.field?, List.lookup_cons, kind, targets,
    controls]

theorem ofRecord?_obj_of_missing (none : g.controls = []) :
    ofRecord? (.obj [("kind", g.kind.record), ("targets", Json.ofList .nat g.targets)]) =
      some g := by
  have targets := Json.list?_ofList fun q hq => Json.natBelow?_nat (targets q hq)
  have controls : Json.list? Control.ofRecord? (.arr []) = some g.controls := none ▸ rfl
  simp [ofRecord?, Json.fieldOf?, Json.lastFieldOf?, Json.field?, List.lookup_cons, kind, targets,
    controls]

end Gate

theorem CircuitRecord.ofJson?_obj {r : CircuitRecord}
    (lines : ∀ numbered ∈ r.lines, Line.ofRecord? (Line.record numbered) = some numbered)
    (gates : ∀ g ∈ r.gates, Gate.ofRecord? g.record = some g) :
    ofJson? (.obj [("name", .str r.name), ("qubits", Json.ofList Line.record r.lines),
      ("gates", Json.ofList Gate.record r.gates)]) = some r := by
  simp [ofJson?, Json.fieldOf?, Json.field?, List.lookup_cons, Json.list?_ofList lines,
    Json.list?_ofList gates]

/-! ### Records as compact texts -/

namespace Json

variable {α : Type} {write : α → Json}

theorem isWritable_ofList {items : List α} (h : ∀ a ∈ items, (write a).IsWritable) :
    (ofList write items).IsWritable :=
  .arr (by simpa using h)

theorem isWritable_ofOption_str (s : Option String) : (ofOption .str s).IsWritable := by
  cases s with
  | none => exact .null
  | some s => exact .str s

@[simp] theorem isWritable_obj_iff {fields : List (String × Json)} :
    (obj fields).IsWritable ↔ ∀ field ∈ fields, field.2.IsWritable :=
  ⟨fun | .obj writable => writable, .obj⟩

end Json

section

open Json

theorem CircuitFormat.survives_of_keeps {x : Float} (h : compact.Keeps x) : Survives x := by
  obtain ⟨finite, read⟩ := h
  refine ⟨finite, ?_⟩
  simp only [compact, Json.text, if_pos finite] at read
  split at read
  · rename_i number
    cases read
    exact number
  · cases read

theorem Axis.isWritable_record (a : Axis) : a.record.IsWritable := by
  cases a <;> exact .str _

theorem GateKind.isWritable_record {kind : GateKind} (h : kind.IsRecordable .compact) :
    kind.record.IsWritable := by
  cases kind with
  | toffoli => exact .str _
  | hadamard => exact .str _
  | pauli axis root adjoint =>
    simp [record, axis.isWritable_record, IsWritable.int root, nat, IsWritable.bool adjoint]
  | rotation axis angle =>
    simp [record, axis.isWritable_record, IsWritable.float (CircuitFormat.survives_of_keeps h)]
  | custom name => simp [record, IsWritable.str name]

theorem Control.isWritable_record (c : Control) : c.record.IsWritable := by
  simp [record, IsWritable.int, nat, IsWritable.bool]

theorem Gate.isWritable_record {g : Gate} (h : g.IsRecordable .compact) :
    g.record.IsWritable := by
  have kind := GateKind.isWritable_record h.kind
  have targets : (ofList .nat g.targets).IsWritable :=
    isWritable_ofList fun q _ => .int q
  have controls : (ofList Control.record g.controls).IsWritable :=
    isWritable_ofList fun c _ => c.isWritable_record
  by_cases none : g.controls = [] <;> simp [record, none, kind, targets, controls]

theorem Line.isWritable_record (numbered : Nat × Line) : (record numbered).IsWritable := by
  simp [record, IsWritable.int, nat, isWritable_ofOption_str]

theorem CircuitRecord.isWritable_toJson {r : CircuitRecord} (h : r.IsRecordable .compact) :
    r.toJson.IsWritable := by
  have lines : (ofList Line.record r.lines).IsWritable :=
    isWritable_ofList fun numbered _ => Line.isWritable_record numbered
  have gates : (ofList Gate.record r.gates).IsWritable :=
    isWritable_ofList fun g hg => Gate.isWritable_record (h.gates g hg)
  simp [toJson, IsWritable.str, lines, gates]

end

theorem CircuitFormat.isFaithful_compact : compact.IsFaithful := by
  constructor
  case parse?_write =>
    intro r recordable
    simp only [compact]
    exact Json.parse?_text (CircuitRecord.isWritable_toJson recordable)
  case kind?_record =>
    intro kind recordable
    exact GateKind.ofRecord?_record recordable
  case control?_record =>
    intro c inRange
    exact Control.ofRecord?_record inRange
  case line?_record =>
    intro numbered inRange
    exact Line.ofRecord?_record inRange
  case gate?_obj =>
    intro g kind targets controls
    exact Gate.ofRecord?_obj kind targets controls
  case gate?_obj_of_missing =>
    intro g kind targets none
    exact Gate.ofRecord?_obj_of_missing kind targets none
  case record?_obj =>
    intro r lines gates
    exact CircuitRecord.ofJson?_obj lines gates

end CnotRouting
