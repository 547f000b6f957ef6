import CnotRouting.Proofs.RepeatedRuns

/-!
# Interrupted runs

Passes work in place on one compilation: what a pass has written stays written, also if it fails
afterwards. But no pass writes before all that can fail has succeeded. A run that ends with an error
therefore ends where the passes before the failing one have brought it, and there that pass fails
again.
-/

namespace CnotRouting

namespace Pass

/-- The pass as it works on a compilation in place, write by write. -/
def act : Pass → ExceptT RoutingError (StateM Compilation) Unit
  | .search => do
    let x ← get
    let d ← demand .missingDevice x.properties.device
    let result ← (Interactions.ofCircuit x.circuit).search d x.properties.strategy
    let best ← demand .missingPlacement result.best?
    let report : SearchReport := ⟨result.cost, result.placements.length, result.strategy⟩
    modify fun x => { x with properties.report := some report }
    modify fun x => { x with properties.placement := some best }
  | .place => do
    let x ← get
    let d ← demand .missingDevice x.properties.device
    let placement ← demand .missingPlacement x.properties.placement
    let circuit ← placement.apply x.circuit d.size
    modify fun x => { x with circuit }
    modify fun x => { x with properties.placed := true }
  | .expand => do
    let x ← get
    let d ← demand .missingDevice x.properties.device
    let circuit ← x.circuit.expand d
    modify fun x => { x with circuit }

/-- Lets the passes that have something to do work in order, up to one that fails. -/
def actAll (passes : List Pass) : ExceptT RoutingError (StateM Compilation) Unit :=
  passes.forM fun pass => do
    if pass.applies (← get).properties then pass.act

/-- Why a pass fails. -/
inductive Fails (x : Compilation) : Pass → RoutingError → Prop where
  | noDevice {pass : Pass} (device : x.properties.device = none) : Fails x pass .missingDevice
  | unsearched {d : Device} {e : RoutingError} (device : x.properties.device = some d)
      (search : (Interactions.ofCircuit x.circuit).search d x.properties.strategy = .error e) :
      Fails x .search e
  | unfound {d : Device} {result : SearchResult} (device : x.properties.device = some d)
      (search : (Interactions.ofCircuit x.circuit).search d x.properties.strategy = .ok result)
      (best : result.best? = none) : Fails x .search .missingPlacement
  | noPlacement {d : Device} (device : x.properties.device = some d)
      (placement : x.properties.placement = none) : Fails x .place .missingPlacement
  | unplaced {d : Device} {p : Placement} {e : RoutingError} (device : x.properties.device = some d)
      (placement : x.properties.placement = some p) (place : p.apply x.circuit d.size = .error e) :
      Fails x .place e
  | unexpanded {d : Device} {e : RoutingError} (device : x.properties.device = some d)
      (expand : x.circuit.expand d = .error e) : Fails x .expand e

/-- What passes make of a compilation that all succeed or have nothing to do. -/
inductive RunsTo : List Pass → Compilation → Compilation → Prop where
  | nil {x : Compilation} : RunsTo [] x x
  | skip {pass : Pass} {passes : List Pass} {x z : Compilation}
      (skipped : pass.applies x.properties = false) (rest : RunsTo passes x z) :
      RunsTo (pass :: passes) x z
  | make {pass : Pass} {passes : List Pass} {x y z : Compilation}
      (applies : pass.applies x.properties = true) (makes : pass.Makes x y)
      (rest : RunsTo passes y z) : RunsTo (pass :: passes) x z

variable {x y : Compilation} {pass : Pass} {passes : List Pass} {e : RoutingError}

theorem demand_eq_error_iff {α : Type} {cause : RoutingError} {o : Option α} :
    demand cause o = .error e ↔ o = none ∧ cause = e := by
  cases o <;> simp [demand]

theorem fails_of_run (h : pass.run x = .error e) : pass.Fails x e := by
  cases pass with
  | search =>
    rcases bind_eq_error_iff.1 h with missing | ⟨d, device, h⟩
    · obtain ⟨device, rfl⟩ := demand_eq_error_iff.1 missing
      exact .noDevice device
    · have device := demand_eq_ok_iff.1 device
      rcases bind_eq_error_iff.1 h with search | ⟨result, search, h⟩
      · exact .unsearched device search
      · rcases bind_eq_error_iff.1 h with missing | ⟨p, -, h⟩
        · obtain ⟨best, rfl⟩ := demand_eq_error_iff.1 missing
          exact .unfound device search best
        · cases h
  | place =>
    rcases bind_eq_error_iff.1 h with missing | ⟨d, device, h⟩
    · obtain ⟨device, rfl⟩ := demand_eq_error_iff.1 missing
      exact .noDevice device
    · have device := demand_eq_ok_iff.1 device
      rcases bind_eq_error_iff.1 h with missing | ⟨p, placement, h⟩
      · obtain ⟨placement, rfl⟩ := demand_eq_error_iff.1 missing
        exact .noPlacement device placement
      · rcases bind_eq_error_iff.1 h with place | ⟨placed, -, h⟩
        · exact .unplaced device (demand_eq_ok_iff.1 placement) place
        · cases h
  | expand =>
    rcases bind_eq_error_iff.1 h with missing | ⟨d, device, h⟩
    · obtain ⟨device, rfl⟩ := demand_eq_error_iff.1 missing
      exact .noDevice device
    · rcases bind_eq_error_iff.1 h with expand | ⟨out, -, h⟩
      · exact .unexpanded (demand_eq_ok_iff.1 device) expand
      · cases h

/-! ### Passes in place -/

/-- A result with nothing written on the way to it: what was made, or an error and the compilation
as it was. -/
def unwritten (x : Compilation) : Except RoutingError Compilation →
    Except RoutingError Unit × Compilation
  | .ok y => (.ok (), y)
  | .error e => (.error e, x)

section

variable {m : ExceptT RoutingError (StateM Compilation) Unit}

theorem get_bind_apply (f : Compilation → ExceptT RoutingError (StateM Compilation) Unit)
    (x : Compilation) : (get >>= f : ExceptT RoutingError (StateM Compilation) Unit) x = f x x :=
  rfl

/-- A step that writes nothing either fails at once or goes on with its value. -/
theorem lift_bind_apply {α : Type} {r : Except RoutingError α}
    {f : α → ExceptT RoutingError (StateM Compilation) Unit}
    {g : α → Except RoutingError Compilation} (h : ∀ a, f a x = unwritten x (g a)) :
    (liftM r >>= f : ExceptT RoutingError (StateM Compilation) Unit) x =
      unwritten x (r >>= g) := by
  cases r with
  | error e => rfl
  | ok a => exact h a

theorem bind_apply_of_ok {f : Unit → ExceptT RoutingError (StateM Compilation) Unit}
    (h : m x = (.ok (), y)) : (m >>= f) x = f () y := by
  have step : (m >>= f) x = ExceptT.bindCont f (m x).1 (m x).2 := rfl
  rw [step, h]
  rfl

theorem bind_apply_of_error {f : Unit → ExceptT RoutingError (StateM Compilation) Unit}
    (h : m x = (.error e, y)) : (m >>= f) x = (.error e, y) := by
  have step : (m >>= f) x = ExceptT.bindCont f (m x).1 (m x).2 := rfl
  rw [step, h]
  rfl

end

/-- All that can fail in a pass comes before the first write. -/
theorem act_eq (pass : Pass) (x : Compilation) : pass.act x = unwritten x (pass.run x) := by
  cases pass with
  | search =>
    rw [act, get_bind_apply]
    exact lift_bind_apply fun d => lift_bind_apply fun result => lift_bind_apply fun best => rfl
  | place =>
    rw [act, get_bind_apply]
    exact lift_bind_apply fun d => lift_bind_apply fun p => lift_bind_apply fun placed => rfl
  | expand =>
    rw [act, get_bind_apply]
    exact lift_bind_apply fun d => lift_bind_apply fun out => rfl

theorem act_of_ok (h : pass.run x = .ok y) : pass.act x = (.ok (), y) := by
  rw [act_eq, h, unwritten]

theorem act_of_error (h : pass.run x = .error e) : pass.act x = (.error e, x) := by
  rw [act_eq, h, unwritten]

theorem actAll_cons (pass : Pass) (passes : List Pass) (x : Compilation) :
    actAll (pass :: passes) x =
      ((if pass.applies x.properties then pass.act else pure ()) >>= fun _ => actAll passes) x :=
  rfl

theorem actAll_of_skipped (h : pass.applies x.properties = false) :
    actAll (pass :: passes) x = actAll passes x := by
  rw [actAll_cons, h]
  rfl

theorem actAll_of_ok (applies : pass.applies x.properties = true) (h : pass.run x = .ok y) :
    actAll (pass :: passes) x = actAll passes y := by
  rw [actAll_cons, if_pos applies, bind_apply_of_ok (act_of_ok h)]

theorem actAll_of_error (applies : pass.applies x.properties = true) (h : pass.run x = .error e) :
    actAll (pass :: passes) x = (.error e, x) := by
  rw [actAll_cons, if_pos applies, bind_apply_of_error (act_of_error h)]

theorem RunsTo.actAll_append {before : List Pass} (h : RunsTo before x y) (passes : List Pass) :
    actAll (before ++ passes) x = actAll passes y := by
  induction h with
  | nil => rfl
  | skip skipped _ ih => rw [List.cons_append, actAll_of_skipped skipped, ih]
  | make applies makes _ ih =>
    rw [List.cons_append, actAll_of_ok applies (run_eq_ok_iff.2 makes), ih]

/-- How a run ends: all its passes have succeeded or had nothing to do, or it ends at the first one
that fails, where those before it have led. -/
inductive Ends (x : Compilation) (passes : List Pass) :
    Option RoutingError × Compilation → Prop where
  | finished {y : Compilation} (all : RunsTo passes x y) : Ends x passes (none, y)
  | failed {before after : List Pass} {failing : Pass} {y : Compilation} {e : RoutingError}
      (parts : passes = before ++ failing :: after) (reached : RunsTo before x y)
      (applies : failing.applies y.properties = true) (fails : failing.run y = .error e) :
      Ends x passes (some e, y)

/-- A first pass that leads on is one more pass that the run has behind it. -/
theorem Ends.cons {run : Option RoutingError × Compilation} (h : Ends y passes run)
    (first : ∀ passes z, RunsTo passes y z → RunsTo (pass :: passes) x z) :
    Ends x (pass :: passes) run := by
  cases h with
  | finished all => exact .finished (first _ _ all)
  | failed parts reached applies fails =>
    exact .failed (by rw [parts, List.cons_append]) (first _ _ reached) applies fails

theorem ends_runPasses (passes : List Pass) (x : Compilation) :
    Ends x passes (runPasses passes x) := by
  induction passes generalizing x with
  | nil => exact .finished .nil
  | cons pass passes ih =>
    cases applies : pass.applies x.properties with
    | false =>
      rw [(isDone_of_skipped applies).runPasses_eq]
      exact (ih x).cons fun _ _ => .skip applies
    | true =>
      cases run : pass.run x with
      | error e =>
        rw [runPasses_of_error applies run]
        exact .failed rfl .nil applies run
      | ok y =>
        rw [runPasses_of_ok applies run]
        exact (ih y).cons fun _ _ => .make applies (run_eq_ok_iff.1 run)

/-- What a run in place returns: nothing, or its error. -/
def returned : Option RoutingError → Except RoutingError Unit
  | none => .ok ()
  | some e => .error e

theorem RunsTo.actAll_eq (h : RunsTo passes x y) : actAll passes x = (.ok (), y) := by
  have run := h.actAll_append []
  rwa [List.append_nil] at run

/-- Passes that work in place end as a run of them ends. -/
theorem Ends.actAll_eq {run : Option RoutingError × Compilation} (h : Ends x passes run) :
    actAll passes x = (returned run.1, run.2) := by
  cases h with
  | finished all => exact all.actAll_eq
  | failed parts reached applies fails =>
    rw [parts, reached.actAll_append, actAll_of_error applies fails, returned]

end Pass

/-- If passes that work in place end with an error, one of them has failed. The circuit and all
properties are then those that the passes before it have led to, each of which succeeded or had
nothing to do. The failing pass has changed nothing, and where the run has ended it fails again with
the same error. The run that returns what was reached beside its error ends in the same way. -/
theorem failing_pass_leaves_no_trace {passes : List Pass} {x y : Compilation} {e : RoutingError}
    (h : Pass.actAll passes x = (.error e, y)) :
    runPasses passes x = (some e, y) ∧
      ∃ before failing after, passes = before ++ failing :: after ∧
        Pass.RunsTo before x y ∧ Pass.actAll before x = (.ok (), y) ∧
        failing.applies y.properties = true ∧ failing.Fails y e ∧
        failing.act y = (.error e, y) ∧ Pass.actAll [failing] y = (.error e, y) := by
  have ends := Pass.ends_runPasses passes x
  rw [ends.actAll_eq] at h
  generalize runPasses passes x = run at ends h
  cases ends with
  | finished all => cases h
  | @failed before after failing _ _ parts reached applies fails =>
    cases h
    exact ⟨rfl, before, failing, after, parts, reached, reached.actAll_eq, applies,
      Pass.fails_of_run fails, Pass.act_of_error fails, Pass.actAll_of_error applies fails⟩

/-- The search and the placement succeed and are passed over when they come again. The expansion
fails in the middle of the circuit, at the gate that is known by its name only. -/
theorem failing_pass_leaves_no_trace_twoQubits :
    let c : Circuit := ⟨"", [.unnamed, .unnamed], [.cnot 1 0, .custom "swap" [0], .not 1]⟩
    let passes : List Pass := [.search, .place, .search, .place, .expand, .search]
    let run := Pass.actAll passes ⟨c, .forDevice .twoQubits .exhaustive⟩
    run.1 = .error (.unsupportedGate 1 "swap") ∧
      run.2.circuit.gates = [.cnot 0 1, .custom "swap" [1], .not 0] ∧
      run.2.properties.placement = some ⟨[1, 0]⟩ ∧
      ∃ failing ∈ passes, failing.Fails run.2 (.unsupportedGate 1 "swap") ∧
        failing.act run.2 = (.error (.unsupportedGate 1 "swap"), run.2) := by
  intro c passes run
  have error : run.1 = .error (.unsupportedGate 1 "swap") := by decide +kernel
  have gates : run.2.circuit.gates = [.cnot 0 1, .custom "swap" [1], .not 0] := by decide +kernel
  have placement : run.2.properties.placement = some ⟨[1, 0]⟩ := by decide +kernel
  have ended : Pass.actAll passes ⟨c, .forDevice .twoQubits .exhaustive⟩ = (_, run.2) :=
    Prod.ext error rfl
  obtain ⟨-, before, failing, after, parts, -, -, -, fails, again, -⟩ :=
    failing_pass_leaves_no_trace ended
  have member : failing ∈ passes := by simp [parts]
  exact ⟨error, gates, placement, failing, member, fails, again⟩

end CnotRouting
