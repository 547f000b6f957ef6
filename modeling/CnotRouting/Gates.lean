/-! # Gates on circuit lines

A gate record is a kind, its target lines and its control entries. A control fires on 1, or on 0
when it is negative. The lines of a gate are always listed controls first. Angles are stored and
copied, never computed with; `==` compares them as numbers. -/

namespace CnotRouting

inductive Axis where
  | x
  | y
  | z
  deriving DecidableEq

inductive GateKind where
  /-- The NOT of a target line; with controls it is the CNOT and the Toffoli gate. -/
  | toffoli
  | hadamard
  /-- A root of a Pauli operator: Z with root 2 is S, Z with root 4 is T. -/
  | pauli (axis : Axis) (root : Nat) (adjoint : Bool)
  | rotation (axis : Axis) (angle : Float)
  /-- A gate known by its name only. -/
  | custom (name : String)
  deriving BEq, DecidableEq

/-- The base name of a kind. Roots of X and Y are named like X and Y. -/
def GateKind.name : GateKind → String
  | .toffoli => "x"
  | .hadamard => "h"
  | .pauli .x _ _ => "x"
  | .pauli .y _ _ => "y"
  | .pauli .z 2 false => "s"
  | .pauli .z 2 true => "sdg"
  | .pauli .z 4 false => "t"
  | .pauli .z 4 true => "tdg"
  | .pauli .z _ _ => "z"
  | .rotation .x _ => "rx"
  | .rotation .y _ => "ry"
  | .rotation .z _ => "rz"
  | .custom name => name

/-- A control line with its polarity: a positive control fires on 1, a negative one on 0. -/
structure Control where
  line : Nat
  positive : Bool
  deriving DecidableEq

structure Gate where
  kind : GateKind
  targets : List Nat
  controls : List Control
  deriving BEq, DecidableEq

namespace Gate

def not (target : Nat) : Gate := ⟨.toffoli, [target], []⟩

/-- The NOT of `target` under any number of controls. -/
def toffoli (controls : List Control) (target : Nat) : Gate := ⟨.toffoli, [target], controls⟩

def cnot (control target : Nat) : Gate := toffoli [⟨control, true⟩] target

/-- The CNOT that fires when `control` is 0. -/
def cnotOnZero (control target : Nat) : Gate := toffoli [⟨control, false⟩] target

def ccnot (first second target : Nat) : Gate := toffoli [⟨first, true⟩, ⟨second, true⟩] target

def hadamard (target : Nat) : Gate := ⟨.hadamard, [target], []⟩

def pauli (axis : Axis) (root : Nat) (adjoint : Bool) (target : Nat) : Gate :=
  ⟨.pauli axis root adjoint, [target], []⟩

def pauliY : Nat → Gate := pauli .y 1 false
def pauliZ : Nat → Gate := pauli .z 1 false
def phase : Nat → Gate := pauli .z 2 false
def phaseAdjoint : Nat → Gate := pauli .z 2 true
def eighth : Nat → Gate := pauli .z 4 false
def eighthAdjoint : Nat → Gate := pauli .z 4 true

def rotation (axis : Axis) (angle : Float) (target : Nat) : Gate :=
  ⟨.rotation axis angle, [target], []⟩

def custom (name : String) (targets : List Nat) : Gate := ⟨.custom name, targets, []⟩

/-- The base name after one `c` for each control. -/
def name (g : Gate) : String :=
  String.ofList (List.replicate g.controls.length 'c') ++ g.kind.name

/-- Every line the gate touches, controls first. -/
def lines (g : Gate) : List Nat := g.controls.map (·.line) ++ g.targets

def arity (g : Gate) : Nat := g.controls.length + g.targets.length

def target? (g : Gate) : Option Nat := g.targets.head?

def isNot (g : Gate) : Bool :=
  match g.kind, g.controls with
  | .toffoli, [] => true
  | _, _ => false

def isCnot (g : Gate) : Bool :=
  match g.kind, g.controls with
  | .toffoli, [_] => true
  | _, _ => false

/-- The same gate with every line sent through `f`. -/
def relabel (f : Nat → Nat) (g : Gate) : Gate :=
  { g with
    targets := g.targets.map f
    controls := g.controls.map fun c => { c with line := f c.line } }

@[simp] theorem length_lines (g : Gate) : g.lines.length = g.arity := by
  simp [lines, arity]

@[simp] theorem kind_relabel (f : Nat → Nat) (g : Gate) : (g.relabel f).kind = g.kind := rfl

@[simp] theorem lines_relabel (f : Nat → Nat) (g : Gate) :
    (g.relabel f).lines = g.lines.map f := by
  simp [lines, relabel, Function.comp_def]

@[simp] theorem name_relabel (f : Nat → Nat) (g : Gate) : (g.relabel f).name = g.name := by
  simp [name, relabel]

theorem relabel_relabel (f h : Nat → Nat) (g : Gate) :
    (g.relabel f).relabel h = g.relabel (h ∘ f) := by
  simp [relabel, Function.comp_def]

@[simp] theorem relabel_id (g : Gate) : g.relabel id = g := by
  simp [relabel]

end Gate

end CnotRouting
