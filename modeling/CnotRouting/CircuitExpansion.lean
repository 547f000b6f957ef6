import CnotRouting.Circuits
import CnotRouting.Devices
import CnotRouting.RouteLowering

/-! # Expansion of circuits

A circuit is expanded for a device by putting the lowered route of its pair in the place of every
CNOT. A CNOT that fires on 0 is expanded between two NOTs of its control. Gates without controls
other than named ones stay as they are, and no other gate has an expansion. The expanded circuit has
one line for every qubit of the device. -/

namespace CnotRouting

namespace Device

variable (d : Device)

def cnotExpansion (c : Control) (target : Nat) : Except RoutingError (List Gate) := do
  let route ← d.table.route c.line target
  let flips := if c.positive then [] else [Gate.not c.line]
  return flips ++ route.lower ++ flips

/-- The gates that stand for the gate at a position of the circuit. -/
def expansion (position : Nat) (g : Gate) : Except RoutingError (List Gate) :=
  match g.targets, g.controls, g.kind with
  | [target], [c], .toffoli => d.cnotExpansion c target
  | [_], [], .custom _ => .error (.unsupportedGate position g.name)
  | [_], [], _ => .ok [g]
  | _, _, _ => .error (.unsupportedGate position g.name)

/-- The expansion of a gate, provided that a circuit on the device accepts every gate of it. -/
def checkedExpansion (position : Nat) (g : Gate) : Except RoutingError (List Gate) := do
  let gates ← d.expansion position g
  match gates.findSome? (Gate.fault? d.size) with
  | some fault => throw (.gate fault)
  | none => return gates

end Device

def Circuit.expand (c : Circuit) (d : Device) : Except RoutingError Circuit :=
  if d.size < c.width then .error (.circuitTooLarge c.width d.size)
  else do
    let parts ← c.gates.zipIdx.mapM fun (g, position) => d.checkedExpansion position g
    return { c.padTo d.size with gates := parts.flatten }

end CnotRouting
