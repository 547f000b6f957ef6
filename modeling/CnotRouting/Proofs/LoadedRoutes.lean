import CnotRouting.Proofs.ReadDevices
import Mathlib.Data.ZMod.Basic

/-!
# Routes read from texts

The reader follows where the steps of a route bring the ends of its CNOT, and no more. What it
accepts acts as the CNOT exactly if the moves cancel, provided that their way is clear. Neither is
checked, and a text with a stray move, or with moves that bring both ends to one qubit, is accepted
although its route acts otherwise.
-/

namespace CnotRouting

universe u

/-- The devices that are read from a text or loaded from bytes. -/
inductive Device.IsRead : Device → Prop where
  | parsed {text : String} {d : Device} (h : parse text = .ok d) : IsRead d
  | loaded {bytes : ByteArray} {d : Device} (h : load bytes = .ok d) : IsRead d

theorem Device.IsRead.isConsistent {d : Device} (h : d.IsRead) : d.IsConsistent := by
  cases h with
  | parsed h => exact (isConsistent_of_parse h).1
  | loaded h => exact (isConsistent_of_load h).1

/-! ### Accepted routes that act otherwise -/

/-- The numbers modulo seven, where 2 is a root of one half. -/
def sevenths : GateMatrices (ZMod 7) := ⟨2, by decide, fun _ _ _ => 0⟩

/-- The state of two lines that are both 0. -/
def zeros : StateVector (ZMod 7) 2 := fun x => if x.bit 0 || x.bit 1 then 0 else 1

/-- The text of the chain of two qubits, with a stray move of the target before the native CNOT. -/
def strayMoveText : String :=
  "2\n- X\n- -\n0 5\n4 0\n" ++
  "cnot(0,1) =>\ntab 0 1\nnop 0 1\ncost = 5\n" ++
  "cnot(1,0) =>\nflip 1 0\ncost = 4\n"

/-- The text of two qubits joined in both directions, where the control is carried onto the target
and a cascade from there leads back. -/
def meetingEndsText : String :=
  "2\n- X\nX -\n0 13\n0 0\n" ++
  "cnot(0,1) =>\ncba 0 1\ncnot3 1 0 1\ncbai 0 1\ncost = 13\n" ++
  "cnot(1,0) =>\nnop 1 0\ncost = 0\n"

/-- Two texts are accepted whose routes for the CNOT from 0 to 1 do not act as this CNOT: in one a
move is never taken back, in the other all moves are, but their way is not clear. -/
theorem accepted_route_not_exact :
    ∃ d d' r r', Device.parse strayMoveText = .ok d ∧ d.table.route 0 1 = .ok r ∧
      Device.parse meetingEndsText = .ok d' ∧ d'.table.route 0 1 = .ok r' ∧
      actAll sevenths r.lower zeros ≠ (Gate.cnot 0 1).act sevenths zeros ∧
      actAll sevenths r'.lower zeros ≠ (Gate.cnot 0 1).act sevenths zeros := by
  let stray : Route := [⟨.move .target .along, 0, 1, none⟩, ⟨.native, 0, 1, none⟩]
  let meeting : Route := [⟨.move .control .against, 0, 1, none⟩, .cascade 1 0 1,
    ⟨.undo .control .against, 0, 1, none⟩]
  let d : Device := ⟨.chain 2, .ofRoutes 2 [[], stray, [⟨.flip, 1, 0, none⟩], []]⟩
  let d' : Device := ⟨.ofPairs 2 [(0, 1), (1, 0)],
    .ofRoutes 2 [[], meeting, [⟨.native, 1, 0, none⟩], []]⟩
  have parsed : Device.parse strayMoveText = .ok d := by
    apply ok_of_toOption
    decide +kernel
  have parsed' : Device.parse meetingEndsText = .ok d' := by
    apply ok_of_toOption
    decide +kernel
  refine ⟨d, d', stray, meeting, parsed, rfl, parsed', rfl, ?_, ?_⟩
  · intro same
    have amplitude : actAll sevenths stray.lower zeros (fun _ => false) ≠
        (Gate.cnot 0 1).act sevenths zeros (fun _ => false) := by
      decide +kernel
    exact amplitude (congrFun same _)
  · intro same
    have amplitude : actAll sevenths meeting.lower zeros (fun _ => false) ≠
        (Gate.cnot 0 1).act sevenths zeros (fun _ => false) := by
      decide +kernel
    exact amplitude (congrFun same _)

/-! ### How accepted routes act -/

/-- What a route for the CNOT from `v` to `w` does to states of `n` lines, in terms of the steps
before and after its terminal step. -/
structure Route.ActsByParts (r : Route) (n v w : Nat) (before : Route) (t : Step) (after : Route) :
    Prop where
  in_order : t.a ≠ t.far → ∀ {R : Type u} [CommRing R] (m : GateMatrices R) (ψ : StateVector R n),
    actAll m r.lower ψ =
      actAll m after.lower ((Gate.cnot t.a t.far).act m (actAll m before.lower ψ))
  on_clear_way : before.IsClear (v, w) →
    ∀ {R : Type u} [CommRing R] (m : GateMatrices R) (ψ : StateVector R n),
      actAll m r.lower ψ = actAll m (before ++ after).lower ((Gate.cnot v w).act m ψ)
  exact_iff : before.IsClear (v, w) → ∀ {R : Type u} [CommRing R] (m : GateMatrices R),
    (∀ ψ : StateVector R n, actAll m r.lower ψ = (Gate.cnot v w).act m ψ) ↔
      ∀ ψ : StateVector R n, actAll m (before ++ after).lower ψ = ψ
  exact_of_undone : before.IsClear (v, w) → after = before.reverse.map Step.inverse →
    ∀ {R : Type u} [CommRing R] (m : GateMatrices R) (ψ : StateVector R n),
      actAll m r.lower ψ = (Gate.cnot v w).act m ψ

theorem Route.Serves.actsByParts {g : CouplingGraph} {r : Route} {v w : Nat}
    (h : r.Serves g v w) (valid : g.IsValid) (hp : IsPair g.size (v, w)) {before after : Route}
    {t : Step} (split : r.SplitsAt (v, w) (v, w) before t after) :
    Route.ActsByParts.{u} r g.size v w before t after := by
  have by_moves : before.IsClear (v, w) →
      ∀ {R : Type u} [CommRing R] (m : GateMatrices R) (ψ : StateVector R g.size),
        actAll m r.lower ψ = actAll m (before ++ after).lower ((Gate.cnot v w).act m ψ) :=
    fun clear _ _ m ψ => Route.act_lower m valid h.native split clear hp ψ
  refine ⟨fun ne _ _ m ψ => Route.act_in_order m valid h.native split ne ψ, by_moves, ?_, ?_⟩
  · intro clear R _ m
    constructor
    · intro exact_action ψ
      have twice := Gate.cnot_cnot m hp.ne hp.snd_lt ψ
      have there := by_moves clear m ((Gate.cnot v w).act m ψ)
      rw [exact_action, twice] at there
      exact there.symm
    · intro cancel ψ
      rw [by_moves clear m ψ, cancel]
  · rintro clear rfl R _ m ψ
    have natives := (Route.native_parts h.native split).1
    have whole : (before ++ before.reverse.map Step.inverse).Carries :=
      Route.carries_append.2 ⟨split.carries_before, split.carries_after⟩
    rw [by_moves clear m ψ, Route.lower_of_carries whole, List.flatMap_append, actAll_append]
    exact Route.act_undone m valid split.carries_before natives _

/-- For every device that is read, the route of two distinct qubits is native and has one terminal
step. It acts as its parts do; on a clear way it acts as the CNOT and then as its moves alone, and so
as the CNOT exactly if the moves cancel. -/
theorem read_route_acts {d : Device} (hd : d.IsRead) {v w : Nat} (hv : v < d.size)
    (hw : w < d.size) (hvw : v ≠ w) :
    ∃ r, d.table.route v w = .ok r ∧ (∀ s ∈ r, s.IsNative d.graph) ∧
      (∃ before t after, r.SplitsAt (v, w) (v, w) before t after) ∧
      ∀ before t after, r.SplitsAt (v, w) (v, w) before t after →
        Route.ActsByParts.{u} r d.size v w before t after := by
  have consistent := hd.isConsistent
  obtain ⟨r, hr, serves⟩ := consistent.serves hv hw hvw
  refine ⟨r, hr, serves.native, Route.realizes_iff_splitsAt.1 serves.realizes, ?_⟩
  intro before t after split
  exact serves.actsByParts consistent.valid ⟨hvw, hv, hw⟩ split

/-- The text of the chain of three qubits, where the control is carried for the CNOT from 2 to 0. -/
def chainText : String :=
  "3\n- X -\n- - X\n- - -\n0 0 3\n4 0 0\n14 4 0\n" ++
  "cnot(0,1) =>\nnop 0 1\ncost = 0\n" ++
  "cnot(0,2) =>\ncnot3 0 1 2\ncost = 3\n" ++
  "cnot(1,0) =>\nflip 1 0\ncost = 4\n" ++
  "cnot(1,2) =>\nnop 1 2\ncost = 0\n" ++
  "cnot(2,0) =>\ncba 2 1\nflip 1 0\ncbai 2 1\ncost = 14\n" ++
  "cnot(2,1) =>\nflip 2 1\ncost = 4\n"

/-- The route from the end of the chain to its start. -/
def chainRelay : Route :=
  [⟨.move .control .against, 2, 1, none⟩, ⟨.flip, 1, 0, none⟩,
    (⟨.move .control .against, 2, 1, none⟩ : Step).inverse]

/-- The device of the chain text. -/
def Device.chainThree : Device :=
  ⟨.chain 3, .ofRoutes 3 [[], [⟨.native, 0, 1, none⟩], [.cascade 0 1 2], [⟨.flip, 1, 0, none⟩], [],
    [⟨.native, 1, 2, none⟩], chainRelay, [⟨.flip, 2, 1, none⟩], []]⟩

theorem Device.parse_chainText : parse chainText = .ok chainThree := by
  apply ok_of_toOption
  decide +kernel

theorem read_route_acts_chain_three :
    ∃ d r, Device.parse chainText = .ok d ∧ d.table.route 2 0 = .ok r ∧
      ∀ (m : GateMatrices (ZMod 7)) (ψ : StateVector (ZMod 7) d.size),
        actAll m r.lower ψ = (Gate.cnot 2 0).act m ψ := by
  let before : Route := [⟨.move .control .against, 2, 1, none⟩]
  have route : Device.chainThree.table.route 2 0 = .ok chainRelay := rfl
  obtain ⟨r, hr, -, -, acts⟩ := read_route_acts (.parsed Device.parse_chainText) (v := 2) (w := 0)
    (by decide) (by decide) (by decide)
  obtain rfl : chainRelay = r := by
    rw [route] at hr
    cases hr
    rfl
  have split : chainRelay.SplitsAt (2, 0) (2, 0) before ⟨.flip, 1, 0, none⟩
      (before.reverse.map Step.inverse) :=
    ⟨rfl, by simp [before, StepKind.isTerminal], rfl,
      by simp [before, Step.inverse, StepKind.inverse, StepKind.isTerminal], rfl, rfl⟩
  have clear : before.IsClear (2, 0) := by
    simp [before, Route.IsClear, Step.IsClear]
  exact ⟨_, chainRelay, Device.parse_chainText, route, fun m ψ =>
    (acts _ _ _ split).exact_of_undone clear rfl m ψ⟩

end CnotRouting
