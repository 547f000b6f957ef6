import CnotRouting.Circuits
import CnotRouting.RecordFields

/-! # Records of circuits

A circuit is recorded by its name, its lines with their numbers, and its gates. Reading a record
checks its structure only. The circuit of a record is then built line by line and gate by gate, so
its lines are numbered anew and it may refuse a gate. -/

namespace CnotRouting

structure CircuitRecord where
  name : String
  /-- The lines, each after the number it is recorded under. -/
  lines : List (Nat × Line)
  gates : List Gate
  deriving DecidableEq

def Circuit.record (c : Circuit) : CircuitRecord :=
  ⟨c.name, c.lines.zipIdx.map fun (l, k) => (k, l), c.gates⟩

def CircuitRecord.circuit (r : CircuitRecord) : Except GateFault Circuit :=
  Circuit.extend ⟨r.name, r.lines.map (·.2), []⟩ r.gates

/-- Every recorded circuit that accepts its own gates is the circuit of its record. -/
theorem CircuitRecord.circuit_record {c : Circuit}
    (h : ∀ g ∈ c.gates, g.fault? c.width = none) : c.record.circuit = .ok c := by
  have gates : c.gates.findSome? (Gate.fault? c.width) = none := by
    simpa [List.findSome?_eq_none_iff] using h
  have lines : (c.lines.zipIdx.map fun x => (x.2, x.1)).map (·.2) = c.lines := by
    simp [Function.comp_def]
  simp only [CircuitRecord.circuit, Circuit.record, Circuit.extend, lines, Circuit.width] at *
  rw [gates]
  simp

namespace Axis

def record : Axis → Json
  | .x => .str "X"
  | .y => .str "Y"
  | .z => .str "Z"

def ofRecord? (v : Json) : Option Axis :=
  match Json.plainAlternative? v with
  | some "X" => some .x
  | some "Y" => some .y
  | some "Z" => some .z
  | _ => none

@[simp] theorem ofRecord?_record (a : Axis) : ofRecord? a.record = some a := by
  cases a <;> rfl

end Axis

namespace GateKind

def pauliFields : List String := ["axis", "root", "adjoint"]

def record : GateKind → Json
  | .toffoli => .str "Toffoli"
  | .hadamard => .str "Hadamard"
  | .pauli axis root adjoint =>
    .obj [("Pauli",
      .obj [("axis", axis.record), ("root", .nat root), ("adjoint", .bool adjoint)])]
  | .rotation axis angle =>
    .obj [("Rotation", .obj [("axis", axis.record), ("angle", .float angle)])]
  | .custom name => .obj [("Custom", .obj [("name", .str name)])]

def ofRecord? (v : Json) : Option GateKind := do
  let (name, content) ← Json.alternative? v
  match name, content with
  | "Toffoli", .null => return .toffoli
  | "Hadamard", .null => return .hadamard
  | "Pauli", content =>
    return .pauli (← Axis.ofRecord? (← content.fieldOf? pauliFields "axis"))
      (← Json.natBelow? wordBound (← content.fieldOf? pauliFields "root"))
      (← Json.bool? (← content.fieldOf? pauliFields "adjoint"))
  | "Rotation", content =>
    return .rotation (← Axis.ofRecord? (← content.namedFieldOf? "axis"))
      (← Json.float? (← content.namedFieldOf? "angle"))
  | "Custom", content => return .custom (← Json.string? (← content.fieldOf? ["name"] "name"))
  | _, _ => none

end GateKind

namespace Control

def recordFields : List String := ["line", "polarity"]

def record (c : Control) : Json :=
  .obj [("line", .nat c.line), ("polarity", .bool c.positive)]

def ofRecord? (v : Json) : Option Control := do
  return ⟨← Json.natBelow? wordBound (← v.fieldOf? recordFields "line"),
    ← Json.bool? (← v.fieldOf? recordFields "polarity")⟩

end Control

namespace Gate

/-- The fields of a gate. The controls are written only if there are any. -/
def recordFields : List String := ["kind", "targets", "controls"]

def record (g : Gate) : Json :=
  .obj <| [("kind", g.kind.record), ("targets", Json.ofList .nat g.targets)] ++
    if g.controls.isEmpty then [] else [("controls", Json.ofList Control.record g.controls)]

def ofRecord? (v : Json) : Option Gate := do
  return ⟨← GateKind.ofRecord? (← v.fieldOf? recordFields "kind"),
    ← Json.list? (Json.natBelow? wordBound) (← v.fieldOf? recordFields "targets"),
    ← Json.list? Control.ofRecord? (← v.lastFieldOf? recordFields "controls" (.arr []))⟩

end Gate

namespace Line

def recordFields : List String := ["id", "input", "output"]

def record (numbered : Nat × Line) : Json :=
  .obj [("id", .nat numbered.1), ("input", Json.ofOption .str numbered.2.input),
    ("output", Json.ofOption .str numbered.2.output)]

def ofRecord? (v : Json) : Option (Nat × Line) := do
  return (← Json.natBelow? wordBound (← v.fieldOf? recordFields "id"),
    ⟨← Json.optional? Json.string? (← v.nullableFieldOf? recordFields "input"),
      ← Json.optional? Json.string? (← v.nullableFieldOf? recordFields "output")⟩)

end Line

namespace CircuitRecord

def recordFields : List String := ["name", "qubits", "gates"]

def toJson (r : CircuitRecord) : Json :=
  .obj [("name", .str r.name), ("qubits", Json.ofList Line.record r.lines),
    ("gates", Json.ofList Gate.record r.gates)]

/-- The record that a JSON value holds, if it has the structure of one. -/
def ofJson? (v : Json) : Option CircuitRecord := do
  return ⟨← Json.string? (← v.fieldOf? recordFields "name"),
    ← Json.list? Line.ofRecord? (← v.fieldOf? recordFields "qubits"),
    ← Json.list? Gate.ofRecord? (← v.fieldOf? recordFields "gates")⟩

end CircuitRecord

end CnotRouting
