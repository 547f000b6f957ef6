/-! # Steps of a route

A native CNOT needs a directed edge from its control to its target. A route realises a CNOT between
two far qubits in steps: moves carry the control or the target to a neighbour, one terminal step
applies the CNOT there, and undoing steps bring the qubits back. Each step works on operands `a`,
`b` and, for a cascade, `c`; its cost is the number of gates it adds to the one CNOT. -/

namespace CnotRouting

/-- Which end of the CNOT a move carries. -/
inductive Endpoint where
  | control
  | target
  deriving DecidableEq

/-- How the edge that a move from `a` to `b` uses is directed: `a → b` or `b → a`. -/
inductive Heading where
  | along
  | against
  deriving DecidableEq

inductive StepKind where
  /-- Carries an end of the CNOT from `a` to `b`. -/
  | move (endpoint : Endpoint) (heading : Heading)
  /-- Carries that end from `b` back to `a`. -/
  | undo (endpoint : Endpoint) (heading : Heading)
  /-- The CNOT from `a` to `b` on the edge `a → b`. -/
  | native
  /-- The CNOT from `a` to `b` on the edge `b → a`, between Hadamards. -/
  | flip
  /-- The CNOT from `a` to `c` on the chain `a → b → c`. -/
  | cascade
  deriving DecidableEq

namespace StepKind

/-- Every kind, in the order of the written tokens. -/
def all : List StepKind :=
  [.move .control .along, .move .control .against, .move .target .along, .move .target .against,
    .undo .control .along, .undo .control .against, .undo .target .along, .undo .target .against,
    .native, .flip, .cascade]

def index (k : StepKind) : Nat := all.idxOf k

def token : StepKind → String
  | .move .control .along => "cab"
  | .move .control .against => "cba"
  | .move .target .along => "tab"
  | .move .target .against => "tba"
  | .undo .control .along => "cabi"
  | .undo .control .against => "cbai"
  | .undo .target .along => "tabi"
  | .undo .target .against => "tbai"
  | .native => "nop"
  | .flip => "flip"
  | .cascade => "cnot3"

def ofToken? (token : String) : Option StepKind := all.find? (·.token == token)

/-- Carrying an end of the CNOT over an edge costs 5 if the edge points the helpful way and 6 if
not: towards the old control, or away from the old target. -/
def moveCost : Endpoint → Heading → Nat
  | .control, .along => 6
  | .control, .against => 5
  | .target, .along => 5
  | .target, .against => 6

/-- The gates a step adds to the one CNOT of the route. -/
def cost : StepKind → Nat
  | .move endpoint heading => moveCost endpoint heading
  | .undo endpoint heading => moveCost endpoint heading
  | .native => 0
  | .flip => 4
  | .cascade => 3

/-- The kind that takes a step back. A terminal kind is its own inverse. -/
def inverse : StepKind → StepKind
  | .move endpoint heading => .undo endpoint heading
  | .undo endpoint heading => .move endpoint heading
  | k => k

def arity : StepKind → Nat
  | .cascade => 3
  | _ => 2

/-- Whether the step applies the CNOT and carries neither end. -/
def isTerminal : StepKind → Bool
  | .native | .flip | .cascade => true
  | .move .. | .undo .. => false

@[simp] theorem inverse_inverse (k : StepKind) : k.inverse.inverse = k := by
  cases k <;> rfl

@[simp] theorem cost_inverse (k : StepKind) : k.inverse.cost = k.cost := by
  cases k <;> rfl

@[simp] theorem isTerminal_inverse (k : StepKind) : k.inverse.isTerminal = k.isTerminal := by
  cases k <;> rfl

/-- Each token names the kind it was written for. -/
@[simp] theorem ofToken?_token (k : StepKind) : ofToken? k.token = some k := by
  rcases k with ⟨_ | _, _ | _⟩ | ⟨_ | _, _ | _⟩ | _ | _ | _ <;> decide

end StepKind

/-- A step: its kind and its operands. The third operand belongs to cascades. -/
structure Step where
  kind : StepKind
  a : Nat
  b : Nat
  c : Option Nat := none
  deriving DecidableEq

namespace Step

def cascade (a b c : Nat) : Step := ⟨.cascade, a, b, some c⟩

def ofOperands (kind : StepKind) (operands : List Nat) : Step :=
  ⟨kind, operands.getD 0 0, operands.getD 1 0, operands[2]?⟩

/-- The operand furthest from `a`: the third if there is one, else the second. -/
def far (s : Step) : Nat := s.c.getD s.b

def cost (s : Step) : Nat := s.kind.cost

/-- The step back, on the same operands. -/
def inverse (s : Step) : Step := { s with kind := s.kind.inverse }

def edges (s : Step) : List (Nat × Nat) :=
  match s.kind with
  | .move _ .along | .undo _ .along | .native => [(s.a, s.b)]
  | .move _ .against | .undo _ .against | .flip => [(s.b, s.a)]
  | .cascade => (s.a, s.b) :: (s.c.map (s.b, ·)).toList

/-- Where qubit `q` is when what stands at `origin` is carried to `goal`. -/
def carry (origin goal q : Nat) : Nat := if q = origin then goal else q

/-- Where a step carries the two ends `(control, target)` of the CNOT. -/
def relabel (s : Step) (position : Nat × Nat) : Nat × Nat :=
  match s.kind with
  | .move .control _ => (carry s.a s.b position.1, position.2)
  | .move .target _ => (position.1, carry s.a s.b position.2)
  | .undo .control _ => (carry s.b s.a position.1, position.2)
  | .undo .target _ => (position.1, carry s.b s.a position.2)
  | .native | .flip | .cascade => position

/-- The written form: the token, then the operands. -/
def text (s : Step) : String :=
  let start := s!"{s.kind.token} {s.a} {s.b}"
  match s.c with
  | none => start
  | some c => s!"{start} {c}"

@[simp] theorem inverse_inverse (s : Step) : s.inverse.inverse = s := by
  simp [inverse]

@[simp] theorem cost_inverse (s : Step) : s.inverse.cost = s.cost := by
  simp [inverse, cost]

@[simp] theorem edges_inverse (s : Step) : s.inverse.edges = s.edges := by
  rcases s with ⟨⟨_, _ | _⟩ | ⟨_, _ | _⟩ | _ | _ | _, a, b, c⟩ <;> rfl

end Step

end CnotRouting
