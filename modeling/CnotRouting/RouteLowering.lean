import CnotRouting.Gates
import CnotRouting.Routes

/-! # Lowering of routes

Each step is made of Hadamards and CNOTs on the edges it uses. The first cascade of a route is made
of four CNOTs. A later one stands for a longer chain: it encloses a copy of the gates lowered before
it between two CNOTs along its last edge. -/

namespace CnotRouting

namespace Step

def gates (s : Step) : List Gate :=
  let a := s.a
  let b := s.b
  let both := [Gate.hadamard a, Gate.hadamard b]
  let ab := Gate.cnot a b
  let ba := Gate.cnot b a
  match s.kind with
  | .move .control .along => both ++ [ab] ++ both ++ [ab]
  | .move .control .against => [ba] ++ both ++ [ba, Gate.hadamard b]
  | .move .target .along => [ab] ++ both ++ [ab, Gate.hadamard b]
  | .move .target .against => both ++ [ba] ++ both ++ [ba]
  | .undo .control .along => [ab] ++ both ++ [ab] ++ both
  | .undo .control .against => [Gate.hadamard b, ba] ++ both ++ [ba]
  | .undo .target .along => [Gate.hadamard b, ab] ++ both ++ [ab]
  | .undo .target .against => [ba] ++ both ++ [ba] ++ both
  | .native => [ab]
  | .flip => both ++ [ba] ++ both
  | .cascade =>
    let bc := Gate.cnot b s.far
    [ab, bc, ab, bc]

end Step

namespace Route

/-- Adds the gates of one step to the gates before it, of which `cascades` steps were cascades. -/
def lowerStep (lowered : List Gate × Nat) (s : Step) : List Gate × Nat :=
  let (gates, cascades) := lowered
  match s.kind with
  | .cascade =>
    if cascades = 0 then (gates ++ s.gates, 1)
    else
      let replay := gates.drop (gates.length - copiedLength cascades)
      let last := Gate.cnot s.b s.far
      (gates ++ last :: (replay ++ [last]), cascades + 1)
  | _ => (gates ++ s.gates, cascades)

def lower (r : Route) : List Gate := (r.foldl lowerStep ([], 0)).1

end Route

end CnotRouting
