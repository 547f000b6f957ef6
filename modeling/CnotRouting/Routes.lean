import CnotRouting.RouteSteps

/-! # Routes

A route is a list of steps. A forward part is a list of moves and a terminal step; it is completed
by taking the moves back in reverse order. A route realises CNOT(v, w) when its one terminal step
acts where the moves have carried v and w, and the rest of it carries them home. -/

namespace CnotRouting

abbrev Route := List Step

/-- The gates that the `n`-th repeated cascade of a chain copies: 2^n + 2^(n+1) - 2. -/
def copiedLength (n : Nat) : Nat := (1 <<< n) + (1 <<< (n + 1)) - 2

def totalCost (costs : List Nat) : Nat := costs.foldr (· + ·) 0

@[simp] theorem totalCost_nil : totalCost [] = 0 := rfl

@[simp] theorem totalCost_cons (c : Nat) (costs : List Nat) :
    totalCost (c :: costs) = c + totalCost costs := rfl

@[simp] theorem totalCost_append (costs more : List Nat) :
    totalCost (costs ++ more) = totalCost costs + totalCost more := by
  induction costs with
  | nil => simp
  | cons c costs ih => simp [ih, Nat.add_assoc]

namespace Route

def cost (r : Route) : Nat := totalCost (r.map Step.cost)

/-- The cost of a forward part once it is completed: all but the last step count twice. -/
def completedCost (r : Route) : Nat := 2 * cost r - (r.getLast?.map Step.cost).getD 0

/-- A forward part of two steps over a middle qubit joined into one cascade. The first step carries
the control along an edge or the target against one, and the second is the native CNOT from there. -/
def joined (r : Route) : Route :=
  match r with
  | [⟨.move .control .along, a, b, _⟩, ⟨.native, a', b', _⟩] =>
    if b = a' then [.cascade a b b'] else r
  | [⟨.move .target .against, a, b, _⟩, ⟨.native, a', b', _⟩] =>
    if b = b' then [.cascade a' b a] else r
  | _ => r

/-- The forward part completed: every step but the last is taken back, in reverse order. -/
def completed (r : Route) : Route := r ++ r.dropLast.reverse.map Step.inverse

/-- Where the steps carry the ends `(control, target)` of the CNOT. -/
def relabel (r : Route) (position : Nat × Nat) : Nat × Nat :=
  r.foldl (fun p s => s.relabel p) position

/-- Follows the two ends through the steps. `applied` tells whether the terminal step has been met;
a second one, or one away from the current position, spoils the route. -/
def realizesFrom (home : Nat × Nat) : Route → (position : Nat × Nat) → (applied : Bool) → Bool
  | [], position, applied => applied && position == home
  | s :: rest, position, applied =>
    if s.kind.isTerminal then
      !applied && (s.a, s.far) == position && realizesFrom home rest position true
    else realizesFrom home rest (s.relabel position) applied

def realizes (r : Route) (v w : Nat) : Bool := realizesFrom (v, w) r (v, w) false

/-- Counts the gates of one step more, given the gates and the cascades before it. -/
def countStep (counts : Nat × Nat) (s : Step) : Nat × Nat :=
  let (gates, cascades) := counts
  match s.kind with
  | .native => (gates + 1, cascades)
  | .flip => (gates + 5, cascades)
  | .cascade =>
    if cascades = 0 then (gates + 4, 1)
    else (gates + (min (copiedLength cascades) gates + 2), cascades + 1)
  | .move .. | .undo .. => (gates + s.cost, cascades)

def gateCount (r : Route) : Nat := (r.foldl countStep (0, 0)).1

/-- The written form: a line for each step and one for the cost. -/
def text (r : Route) : String :=
  String.join (r.map fun s => s.text ++ "\n") ++ s!"cost = {cost r}\n"

@[simp] theorem cost_nil : cost [] = 0 := rfl

@[simp] theorem cost_cons (s : Step) (r : Route) : cost (s :: r) = s.cost + cost r := by
  simp [cost]

@[simp] theorem cost_append (r q : Route) : cost (r ++ q) = cost r + cost q := by
  simp [cost]

@[simp] theorem relabel_nil (position : Nat × Nat) : relabel [] position = position := rfl

@[simp] theorem relabel_cons (s : Step) (r : Route) (position : Nat × Nat) :
    relabel (s :: r) position = relabel r (s.relabel position) := rfl

@[simp] theorem relabel_append (r q : Route) (position : Nat × Nat) :
    relabel (r ++ q) position = relabel q (relabel r position) := by
  simp [relabel]

/-- A forward part of moves `r` and a terminal step `s` costs its moves twice. -/
theorem completedCost_concat (r : Route) (s : Step) :
    completedCost (r ++ [s]) = 2 * cost r + s.cost := by
  simp [completedCost]
  omega

theorem completed_concat (r : Route) (s : Step) :
    completed (r ++ [s]) = r ++ s :: r.reverse.map Step.inverse := by
  simp [completed]

end Route

end CnotRouting
