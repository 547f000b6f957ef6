import CnotRouting.CircuitRecords
import CnotRouting.JsonReading

/-! # Formats of recorded circuits

A circuit is recorded as a JSON value, which is written as a text. How values are written, and how
numbers, values and the parts of a record are read, is up to a format. The compact format reads the
parts of a record from a value that was read as a whole. -/

namespace CnotRouting

/-- How values are written as texts, and how texts and the parts of a record are read. -/
structure CircuitFormat where
  write : Json → String
  number? : String → Option Float
  parse? : String → Option Json
  kind? : Json → Option GateKind
  control? : Json → Option Control
  gate? : Json → Option Gate
  /-- Reads a line and the number it is recorded under. -/
  line? : Json → Option (Nat × Line)
  record? : Json → Option CircuitRecord

namespace CircuitFormat

/-- The record that a text holds, if it is JSON with the structure of one. -/
def read? (f : CircuitFormat) (text : String) : Option CircuitRecord :=
  (f.parse? text).bind f.record?

def compact : CircuitFormat where
  write := Json.text
  number? text :=
    match Json.readNumber? text.toList with
    | some (.float x, []) => some x
    | _ => none
  parse? := Json.parse?
  kind? := GateKind.ofRecord?
  control? := Control.ofRecord?
  gate? := Gate.ofRecord?
  line? := Line.ofRecord?
  record? := CircuitRecord.ofJson?

end CircuitFormat

end CnotRouting
