import CnotRouting.Pipelines
import CnotRouting.Proofs.ExpansionCosts

/-!
# Runs of the mapping

A mapping ends where one of its steps fails, or with the placed and expanded circuit. The pipeline of
a device takes the circuit through the same steps, pass by pass, and ends in the same way: with the
error of the mapping, or with its circuit, its placement and its cost.
-/

namespace CnotRouting

/-- How the mapping of a circuit ends. -/
inductive Circuit.MapsBy (c : Circuit) (d : Device) (s : Strategy) :
    Except RoutingError MappedCircuit → Prop where
  | unsearched {e : RoutingError} (search : (Interactions.ofCircuit c).search d s = .error e) :
      MapsBy c d s (.error e)
  | unfound {result : SearchResult} (search : (Interactions.ofCircuit c).search d s = .ok result)
      (best : result.best? = none) : MapsBy c d s (.error .missingPlacement)
  | unplaced {result : SearchResult} {p : Placement} {e : RoutingError}
      (search : (Interactions.ofCircuit c).search d s = .ok result) (best : result.best? = some p)
      (place : p.apply c d.size = .error e) : MapsBy c d s (.error e)
  | unexpanded {result : SearchResult} {p : Placement} {placed : Circuit} {e : RoutingError}
      (search : (Interactions.ofCircuit c).search d s = .ok result) (best : result.best? = some p)
      (place : p.apply c d.size = .ok placed) (expand : placed.expand d = .error e) :
      MapsBy c d s (.error e)
  | mapped {result : SearchResult} {p : Placement} {placed out : Circuit}
      (search : (Interactions.ofCircuit c).search d s = .ok result) (best : result.best? = some p)
      (place : p.apply c d.size = .ok placed) (expand : placed.expand d = .ok out) :
      MapsBy c d s (.ok ⟨out, p, result.cost⟩)

namespace Circuit

variable {c : Circuit} {d : Device} {s : Strategy}

theorem MapsBy.map_eq {x : Except RoutingError MappedCircuit} (h : c.MapsBy d s x) :
    c.map d s = x := by
  rw [map]
  cases h with
  | unsearched search => rw [bind_of_error search]
  | unfound search best =>
    rw [bind_of_ok search, best]
    rfl
  | unplaced search best place =>
    rw [bind_of_ok search, best]
    exact bind_of_error place _
  | unexpanded search best place expand =>
    rw [bind_of_ok search, best]
    exact (bind_of_ok place _).trans (bind_of_error expand _)
  | mapped search best place expand =>
    rw [bind_of_ok search, best]
    exact (bind_of_ok place _).trans (bind_of_ok expand _)

theorem mapsBy_map (c : Circuit) (d : Device) (s : Strategy) : c.MapsBy d s (c.map d s) := by
  obtain ⟨x, h⟩ : ∃ x, c.MapsBy d s x := by
    cases search : (Interactions.ofCircuit c).search d s with
    | error e => exact ⟨_, .unsearched search⟩
    | ok result =>
      cases best : result.best? with
      | none => exact ⟨_, .unfound search best⟩
      | some p =>
        cases place : p.apply c d.size with
        | error e => exact ⟨_, .unplaced search best place⟩
        | ok placed =>
          cases expand : placed.expand d with
          | error e => exact ⟨_, .unexpanded search best place expand⟩
          | ok out => exact ⟨_, .mapped search best place expand⟩
  rwa [h.map_eq]

end Circuit

/-! ### Passes -/

section

variable {pass : Pass} {passes : List Pass} {x : Compilation}

theorem runPasses_of_ok {y : Compilation} (applies : pass.applies x.properties = true)
    (h : pass.run x = .ok y) : runPasses (pass :: passes) x = runPasses passes y := by
  rw [runPasses, if_pos applies, h]

theorem runPasses_of_error {e : RoutingError} (applies : pass.applies x.properties = true)
    (h : pass.run x = .error e) : runPasses (pass :: passes) x = (some e, x) := by
  rw [runPasses, if_pos applies, h]

end

/-- The properties of a pipeline that is given a device and a strategy, and nothing else. -/
def Properties.forDevice (d : Device) (s : Strategy) : Properties :=
  { device := some d, strategy := s }

/-- The properties that a search leaves. -/
def SearchResult.recorded (result : SearchResult) (properties : Properties) (p : Placement) :
    Properties :=
  { properties with
    placement := some p
    report := some ⟨result.cost, result.placements.length, result.strategy⟩ }

namespace Pass

variable {x : Compilation} {d : Device} {result : SearchResult} {p : Placement}
  {placed out : Circuit} {e : RoutingError}

theorem demand_of_some {α : Type} {o : Option α} {a : α} (h : o = some a) :
    demand e o = .ok a := by
  rw [h, demand]

theorem demand_of_none {α : Type} {o : Option α} (h : o = none) :
    demand e o = .error e := by
  rw [h, demand]

theorem run_search (device : x.properties.device = some d)
    (search : (Interactions.ofCircuit x.circuit).search d x.properties.strategy = .ok result)
    (best : result.best? = some p) :
    Pass.search.run x = .ok { x with properties := result.recorded x.properties p } := by
  rw [run, bind_of_ok (demand_of_some device), bind_of_ok search, bind_of_ok (demand_of_some best)]
  rfl

theorem run_place (device : x.properties.device = some d)
    (placement : x.properties.placement = some p) (place : p.apply x.circuit d.size = .ok placed) :
    Pass.place.run x = .ok ⟨placed, { x.properties with placed := true }⟩ := by
  rw [run, bind_of_ok (demand_of_some device), bind_of_ok (demand_of_some placement),
    bind_of_ok place]
  rfl

theorem run_expand (device : x.properties.device = some d)
    (expand : x.circuit.expand d = .ok out) : Pass.expand.run x = .ok { x with circuit := out } := by
  rw [run, bind_of_ok (demand_of_some device), bind_of_ok expand]
  rfl

end Pass

/-! ### The pipeline of a device -/

namespace Circuit.MapsBy

variable {c : Circuit} {d : Device} {s : Strategy}

/-- The pipeline stops at the pass that fails, with the error of the mapping. -/
theorem runPasses_eq_error {e : RoutingError} (h : c.MapsBy d s (.error e)) :
    ∃ reached, runPasses [.search, .place, .expand] ⟨c, .forDevice d s⟩ = (some e, reached) := by
  -- before the search there is a device but no placement, and nothing is placed before its pass
  cases h with
  | unsearched search =>
    have refused : Pass.search.run ⟨c, .forDevice d s⟩ = .error e := bind_of_error search _
    exact ⟨_, runPasses_of_error rfl refused⟩
  | unfound search best =>
    have refused : Pass.search.run ⟨c, .forDevice d s⟩ = .error .missingPlacement :=
      (bind_of_ok search _).trans (bind_of_error (Pass.demand_of_none best) _)
    exact ⟨_, runPasses_of_error rfl refused⟩
  | @unplaced result p _ search best place =>
    have searched := Pass.run_search (x := ⟨c, .forDevice d s⟩) rfl search best
    have refused : Pass.place.run ⟨c, result.recorded (.forDevice d s) p⟩ = .error e :=
      bind_of_error place _
    exact ⟨_, (runPasses_of_ok rfl searched).trans (runPasses_of_error rfl refused)⟩
  | @unexpanded result p placed _ search best place expand =>
    have searched := Pass.run_search (x := ⟨c, .forDevice d s⟩) rfl search best
    have settled := Pass.run_place (x := ⟨c, result.recorded (.forDevice d s) p⟩) rfl rfl place
    have refused : Pass.expand.run
        ⟨placed, { result.recorded (.forDevice d s) p with placed := true }⟩ = .error e :=
      bind_of_error expand _
    exact ⟨_, (runPasses_of_ok rfl searched).trans
      ((runPasses_of_ok rfl settled).trans (runPasses_of_error rfl refused))⟩

/-- The pipeline reaches the mapped circuit, and records its placement and the search. -/
theorem runPasses_eq_ok {mapped : MappedCircuit} (h : c.MapsBy d s (.ok mapped)) :
    ∃ result, (Interactions.ofCircuit c).search d s = .ok result ∧ result.cost = mapped.cost ∧
      runPasses [.search, .place, .expand] ⟨c, .forDevice d s⟩ = (none, ⟨mapped.circuit,
        { result.recorded (.forDevice d s) mapped.placement with placed := true }⟩) := by
  cases h with
  | @mapped result p placed out search best place expand =>
    have searched := Pass.run_search (x := ⟨c, .forDevice d s⟩) rfl search best
    have settled := Pass.run_place (x := ⟨c, result.recorded (.forDevice d s) p⟩) rfl rfl place
    have expanded := Pass.run_expand
      (x := ⟨placed, { result.recorded (.forDevice d s) p with placed := true }⟩) rfl expand
    refine ⟨result, search, rfl, ?_⟩
    calc runPasses [.search, .place, .expand] ⟨c, .forDevice d s⟩
        = runPasses [.place, .expand] ⟨c, result.recorded (.forDevice d s) p⟩ :=
          runPasses_of_ok rfl searched
      _ = runPasses [.expand]
            ⟨placed, { result.recorded (.forDevice d s) p with placed := true }⟩ :=
          runPasses_of_ok rfl settled
      _ = _ := runPasses_of_ok rfl expanded

end Circuit.MapsBy

/-- The pipeline of a device agrees with the mapping: it succeeds exactly if the mapping does, and
fails with the same error. If both succeed, it reaches the mapped circuit and its placement, and
reports the cost and how many placements the search found. -/
theorem pipeline_agrees_with_map (c : Circuit) (d : Device) (s : Strategy) :
    let start : Compilation := ⟨c, .forDevice d s⟩
    let run := runPasses start.properties.pipeline start
    (run.1 = none ↔ ∃ mapped, c.map d s = .ok mapped) ∧
      (∀ e, run.1 = some e ↔ c.map d s = .error e) ∧
      ∀ mapped, c.map d s = .ok mapped →
        ∃ result, (Interactions.ofCircuit c).search d s = .ok result ∧
          run.2 = ⟨mapped.circuit, { Properties.forDevice d s with
            placement := some mapped.placement
            report := some ⟨mapped.cost, result.placements.length, result.strategy⟩
            placed := true }⟩ := by
  intro start run
  have ends := Circuit.mapsBy_map c d s
  cases hmap : c.map d s with
  | error e =>
    rw [hmap] at ends
    obtain ⟨reached, hrun⟩ := ends.runPasses_eq_error
    have hrun : run = (some e, reached) := hrun
    simp [hrun]
  | ok mapped =>
    rw [hmap] at ends
    obtain ⟨result, search, cost, hrun⟩ := ends.runPasses_eq_ok
    have hrun : run = (none, ⟨mapped.circuit,
      { result.recorded (.forDevice d s) mapped.placement with placed := true }⟩) := hrun
    refine ⟨by simp [hrun], by simp [hrun], ?_⟩
    rintro _ ⟨⟩
    refine ⟨result, search, ?_⟩
    rw [hrun, ← cost]
    rfl

theorem pipeline_agrees_with_map_twoQubits :
    let start : Compilation := ⟨.twoGates, .forDevice .twoQubits .greedy⟩
    ∃ mapped result, Circuit.map .twoGates .twoQubits .greedy = .ok mapped ∧
      (Interactions.ofCircuit .twoGates).search .twoQubits .greedy = .ok result ∧
      (runPasses start.properties.pipeline start).2 = ⟨mapped.circuit,
        { Properties.forDevice .twoQubits .greedy with
          placement := some mapped.placement
          report := some ⟨mapped.cost, result.placements.length, result.strategy⟩
          placed := true }⟩ := by
  intro start
  let out : Circuit := ⟨"", [.unnamed, .unnamed],
    [.hadamard 0, .not 0, .cnot 0 1, .not 0]⟩
  have mapped : Circuit.map .twoGates .twoQubits .greedy = .ok ⟨out, ⟨[0, 1]⟩, 0⟩ := by
    rfl
  obtain ⟨-, -, agrees⟩ := pipeline_agrees_with_map .twoGates .twoQubits .greedy
  obtain ⟨result, search, reached⟩ := agrees _ mapped
  exact ⟨_, result, mapped, search, reached⟩

end CnotRouting
