import CnotRouting.Gates
import CnotRouting.NumberBounds

/-! # Circuits

A circuit is a named list of lines and a list of gates in program order. A line is known by its
position, so a line that is added always takes the next number. A gate is accepted only if it has
a target and its lines, controls first, are distinct lines of the circuit; a refused gate is
reported by the first line at fault. -/

namespace CnotRouting

/-- A circuit line with optional names at the circuit's input and output. -/
structure Line where
  input : Option String
  output : Option String
  deriving DecidableEq

namespace Line

def unnamed : Line := ⟨none, none⟩

def named (input output : String) : Line := ⟨some input, some output⟩

/-- The line that pads a register at position `k`, named `i<k>` and `o<k>`. -/
def idle (k : Nat) : Line := named s!"i{k}" s!"o{k}"

/-- The written form `q<k>` of line number `k`, if it is below the bound. -/
def number? (k : Nat) : Option String := if k < wordBound then some s!"q{k}" else none

/-- The written form of the line at position `k`: its input name, or its number. -/
def text (l : Line) (k : Nat) : String := l.input.getD s!"q{k}"

end Line

/-- Why a gate is refused. Each cause carries the name of the gate. -/
inductive GateFault where
  | noTarget (gate : String)
  | lineNotFound (line : Nat) (gate : String)
  | lineRepeated (line : Nat) (gate : String)
  deriving DecidableEq

def GateFault.message : GateFault → String
  | .noTarget gate => s!"Gate '{gate}' has no target line"
  | .lineNotFound line gate => s!"Qubit QubitId({line}) not found in circuit (gate: {gate})"
  | .lineRepeated line gate => s!"Duplicate qubit QubitId({line}) in operation (gate: {gate})"

/-- The fault of the first line that is not among `width` lines or is already in `seen`. -/
def firstLineFault? (width : Nat) (gate : String) : (seen lines : List Nat) → Option GateFault
  | _, [] => none
  | seen, q :: rest =>
    if width ≤ q then some (.lineNotFound q gate)
    else if q ∈ seen then some (.lineRepeated q gate)
    else firstLineFault? width gate (q :: seen) rest

/-- Why a circuit of `width` lines refuses the gate, if it does. -/
def Gate.fault? (width : Nat) (g : Gate) : Option GateFault :=
  if g.targets.isEmpty then some (.noTarget g.name)
  else firstLineFault? width g.name [] g.lines

/-- A circuit: its name, its lines and its gates in program order. -/
structure Circuit where
  name : String
  lines : List Line
  gates : List Gate
  deriving BEq, DecidableEq

namespace Circuit

def width (c : Circuit) : Nat := c.lines.length

def empty (name : String) : Circuit := ⟨name, [], []⟩

def ofWidth (name : String) (width : Nat) : Circuit := ⟨name, List.replicate width .unnamed, []⟩

/-- The same name and lines, without the gates. -/
def cleared (c : Circuit) : Circuit := { c with gates := [] }

/-- Adds a line after the others; its number is the old width. -/
def addLine (c : Circuit) (l : Line) : Circuit := { c with lines := c.lines ++ [l] }

def padTo (c : Circuit) (width : Nat) : Circuit :=
  { c with lines := c.lines ++ (List.range' c.width (width - c.width)).map .idle }

/-- Appends a run of gates, or reports the first one that is refused. -/
def extend (c : Circuit) (gates : List Gate) : Except GateFault Circuit :=
  match gates.findSome? (Gate.fault? c.width) with
  | some fault => .error fault
  | none => .ok { c with gates := c.gates ++ gates }

def append (c : Circuit) (g : Gate) : Except GateFault Circuit := c.extend [g]

@[simp] theorem width_empty (name : String) : (empty name).width = 0 := rfl

@[simp] theorem width_ofWidth (name : String) (n : Nat) : (ofWidth name n).width = n := by
  simp [ofWidth, width]

@[simp] theorem width_cleared (c : Circuit) : c.cleared.width = c.width := rfl

@[simp] theorem width_addLine (c : Circuit) (l : Line) : (c.addLine l).width = c.width + 1 := by
  simp [addLine, width]

theorem width_padTo {c : Circuit} {n : Nat} (h : c.width ≤ n) : (c.padTo n).width = n := by
  simp only [padTo, width, List.length_append, List.length_map, List.length_range'] at h ⊢
  omega

theorem padTo_width (c : Circuit) : c.padTo c.width = c := by
  simp [padTo]

end Circuit

end CnotRouting
