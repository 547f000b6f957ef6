import CnotRouting.Proofs.MappingRuns
import CnotRouting.Proofs.NativeCircuits

/-!
# Repeated runs

A pass is done once there is nothing left that it would change: a placement has been found, the
circuit has been placed, or the circuit is its own expansion. A pass that has run is done, and the
passes after it leave it so. Passes that are run again therefore come to the place where the first
run ended with nothing changed on the way, also if a pass failed there.
-/

namespace CnotRouting

namespace Pass

/-- What a pass that succeeds makes of a compilation. -/
inductive Makes (x : Compilation) : Pass → Compilation → Prop where
  | search {d : Device} {result : SearchResult} {p : Placement}
      (device : x.properties.device = some d)
      (search : (Interactions.ofCircuit x.circuit).search d x.properties.strategy = .ok result)
      (best : result.best? = some p) :
      Makes x .search { x with properties := result.recorded x.properties p }
  | place {d : Device} {p : Placement} {placed : Circuit} (device : x.properties.device = some d)
      (placement : x.properties.placement = some p)
      (place : p.apply x.circuit d.size = .ok placed) :
      Makes x .place ⟨placed, { x.properties with placed := true }⟩
  | expand {d : Device} {out : Circuit} (device : x.properties.device = some d)
      (expand : x.circuit.expand d = .ok out) : Makes x .expand { x with circuit := out }

variable {x y : Compilation} {pass : Pass}

theorem demand_eq_ok_iff {α : Type} {e : RoutingError} {o : Option α} {a : α} :
    demand e o = .ok a ↔ o = some a := by
  cases o <;> simp [demand]

theorem run_eq_ok_iff : pass.run x = .ok y ↔ pass.Makes x y := by
  constructor
  · intro h
    cases pass with
    | search =>
      obtain ⟨d, device, h⟩ := bind_eq_ok_iff.1 h
      obtain ⟨result, search, h⟩ := bind_eq_ok_iff.1 h
      obtain ⟨p, best, h⟩ := bind_eq_ok_iff.1 h
      cases h
      exact .search (demand_eq_ok_iff.1 device) search (demand_eq_ok_iff.1 best)
    | place =>
      obtain ⟨d, device, h⟩ := bind_eq_ok_iff.1 h
      obtain ⟨p, placement, h⟩ := bind_eq_ok_iff.1 h
      obtain ⟨placed, place, h⟩ := bind_eq_ok_iff.1 h
      cases h
      exact .place (demand_eq_ok_iff.1 device) (demand_eq_ok_iff.1 placement) place
    | expand =>
      obtain ⟨d, device, h⟩ := bind_eq_ok_iff.1 h
      obtain ⟨out, expand, h⟩ := bind_eq_ok_iff.1 h
      cases h
      exact .expand (demand_eq_ok_iff.1 device) expand
  · intro h
    cases h with
    | search device search best => exact run_search device search best
    | place device placement place => exact run_place device placement place
    | expand device expand => exact run_expand device expand

/-- Whether a pass has nothing left to change. -/
def IsDone (x : Compilation) : Pass → Prop
  | .search => x.properties.device.isSome → x.properties.placement.isSome
  | .place => x.properties.placed = true
  | .expand => ∀ d, x.properties.device = some d → x.circuit.expand d = .ok x.circuit

/-- A pass that is done is skipped, or makes nothing new. -/
theorem IsDone.runPasses_eq (h : pass.IsDone x) (passes : List Pass) :
    runPasses (pass :: passes) x = runPasses passes x := by
  rw [runPasses]
  split
  · rename_i applies
    have same : pass.run x = .ok x := by
      cases pass with
      | search =>
        obtain ⟨missing, device⟩ :
            x.properties.placement = none ∧ x.properties.device.isSome = true := by
          simpa [Pass.applies] using applies
        have found := h device
        rw [missing] at found
        cases found
      | place => simp_all [IsDone, Pass.applies]
      | expand =>
        obtain ⟨d, device⟩ := Option.isSome_iff_exists.1 applies
        exact run_expand device (h d device)
    rw [same]
  · rfl

/-- A pass that is skipped is done. -/
theorem isDone_of_skipped (h : pass.applies x.properties = false) : pass.IsDone x := by
  cases pass with
  | search =>
    intro device
    simpa [applies, device, Option.isSome_iff_ne_none] using h
  | place => simpa [IsDone, applies] using h
  | expand =>
    intro d device
    simp [applies, device] at h

end Pass

end CnotRouting
