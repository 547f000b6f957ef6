import CnotRouting.CircuitMetrics
import CnotRouting.Interactions
import Mathlib.Data.List.Basic

/-!
# Relabeled circuits

The lines of a circuit are sent to other lines, no two of them to the same. Throughout the pass that
finds the depth, every line is then on the level of the line that it is sent to, so that the depth
stays the same. So do the counts of gates, and the interactions are sent along with the lines.
-/

namespace CnotRouting

theorem getD_setIfInBounds {levels : Array Nat} {q : Nat} (hq : q < levels.size) (level r : Nat) :
    (levels.setIfInBounds q level).getD r 0 = if r = q then level else levels.getD r 0 := by
  by_cases hr : r = q
  · subst hr
    simp [hq]
  · have other : q ≠ r := Ne.symm hr
    simp [hr, other]

theorem size_setAll (lines : List Nat) (levels : Array Nat) (level : Nat) :
    (lines.foldl (fun levels q => levels.setIfInBounds q level) levels).size = levels.size := by
  induction lines generalizing levels with
  | nil => rfl
  | cons q lines ih => rw [List.foldl_cons, ih, Array.size_setIfInBounds]

theorem getD_setAll {lines : List Nat} {levels : Array Nat} (inside : ∀ q ∈ lines, q < levels.size)
    (level r : Nat) :
    (lines.foldl (fun levels q => levels.setIfInBounds q level) levels).getD r 0 =
      if r ∈ lines then level else levels.getD r 0 := by
  induction lines generalizing levels with
  | nil => simp
  | cons q lines ih =>
    obtain ⟨hq, rest⟩ := List.forall_mem_cons.1 inside
    rw [List.foldl_cons, ih (by simpa using rest), getD_setIfInBounds hq]
    by_cases hr : r ∈ lines <;> simp [hr]

theorem count_map_of_injOn {α β : Type} [BEq α] [LawfulBEq α] [BEq β] [LawfulBEq β] {f : α → β}
    {l : List α} {a : α} (h : ∀ b ∈ l, f b = f a → b = a) : (l.map f).count (f a) = l.count a := by
  rw [List.count, List.countP_map, List.count]
  refine List.countP_congr fun b hb => ?_
  simp only [Function.comp_apply, beq_iff_eq]
  exact ⟨h b hb, congrArg f⟩

namespace Gate

theorem relabel_congr {f h : Nat → Nat} {g : Gate} (same : ∀ q ∈ g.lines, f q = h q) :
    g.relabel f = g.relabel h := by
  have targets : g.targets.map f = g.targets.map h :=
    List.map_congr_left fun q hq => same q (List.mem_append_right _ hq)
  have controls : (g.controls.map fun c => { c with line := f c.line }) =
      g.controls.map fun c => { c with line := h c.line } := by
    refine List.map_congr_left fun c hc => ?_
    rw [same c.line (List.mem_append_left _ (List.mem_map_of_mem hc))]
  rw [relabel, relabel, targets, controls]

theorem isCnot_relabel (f : Nat → Nat) (g : Gate) : (g.relabel f).isCnot = g.isCnot := by
  rcases g with ⟨kind, targets, _ | ⟨c, _ | ⟨c', controls⟩⟩⟩ <;> cases kind <;> rfl

theorem cnotPair?_relabel (f : Nat → Nat) (g : Gate) :
    (g.relabel f).cnotPair? = g.cnotPair?.map (Prod.map f f) := by
  rcases g with ⟨kind, _ | ⟨t, targets⟩, _ | ⟨c, _ | ⟨c', controls⟩⟩⟩ <;> cases kind <;> rfl

end Gate

/-! ### Levels -/

/-- Whether the first `n` lines are on the levels of the lines that they are sent to. -/
structure SameLevels (f : Nat → Nat) (n : Nat) (levels relabeled : Array Nat) : Prop where
  size : levels.size = n
  lt : ∀ q < n, f q < relabeled.size
  level : ∀ q < n, relabeled.getD (f q) 0 = levels.getD q 0

namespace SameLevels

variable {f : Nat → Nat} {n : Nat} {levels relabeled : Array Nat}

theorem levelAbove (h : SameLevels f n levels relabeled) {g : Gate} (hg : ∀ q ∈ g.lines, q < n) :
    Circuit.levelAbove relabeled (g.relabel f) = Circuit.levelAbove levels g := by
  have same : ∀ q ∈ g.lines, relabeled.getD (f q) 0 = levels.getD q 0 :=
    fun q hq => h.level q (hg q hq)
  rw [Circuit.levelAbove, Circuit.levelAbove, Gate.lines_relabel, List.map_map]
  congr 2
  exact List.map_congr_left same

variable (inj : ∀ q < n, ∀ r < n, f q = f r → q = r)
include inj

theorem setAll (h : SameLevels f n levels relabeled) {lines : List Nat} (hl : ∀ q ∈ lines, q < n)
    (level : Nat) : SameLevels f n
      (lines.foldl (fun levels q => levels.setIfInBounds q level) levels)
      ((lines.map f).foldl (fun levels q => levels.setIfInBounds q level) relabeled) := by
  have inside : ∀ q ∈ lines, q < levels.size := h.size.symm ▸ hl
  have inside' : ∀ q ∈ lines.map f, q < relabeled.size :=
    List.forall_mem_map.2 fun q hq => h.lt q (hl q hq)
  refine ⟨by rw [size_setAll, h.size], fun q hq => ?_, fun r hr => ?_⟩
  · rw [size_setAll]
    exact h.lt q hq
  · have same : f r ∈ lines.map f ↔ r ∈ lines := by
      refine ⟨fun hr' => ?_, List.mem_map_of_mem⟩
      obtain ⟨q, hq, heq⟩ := List.mem_map.1 hr'
      exact inj q (hl q hq) r hr heq ▸ hq
    rw [getD_setAll inside', getD_setAll inside, h.level r hr]
    simp only [same]

variable {state state' : Array Nat × Nat}

/-- A gate and the relabeled gate are placed on one level. -/
theorem placeGate (h : SameLevels f n state.1 state'.1) (depth : state'.2 = state.2) {g : Gate}
    (hg : ∀ q ∈ g.lines, q < n) :
    SameLevels f n (Circuit.placeGate state g).1 (Circuit.placeGate state' (g.relabel f)).1 ∧
      (Circuit.placeGate state' (g.relabel f)).2 = (Circuit.placeGate state g).2 := by
  simp only [Circuit.placeGate, h.levelAbove hg, Gate.lines_relabel, depth]
  exact ⟨h.setAll inj hg _, trivial⟩

theorem foldl_placeGate (state state' : Array Nat × Nat) (h : SameLevels f n state.1 state'.1)
    (depth : state'.2 = state.2) {gates : List Gate} (hg : ∀ g ∈ gates, ∀ q ∈ g.lines, q < n) :
    ((gates.map (·.relabel f)).foldl Circuit.placeGate state').2 =
      (gates.foldl Circuit.placeGate state).2 := by
  induction gates generalizing state state' with
  | nil => exact depth
  | cons g gates ih =>
    obtain ⟨hfirst, htail⟩ := List.forall_mem_cons.1 hg
    obtain ⟨next, depth⟩ := h.placeGate inj depth hfirst
    exact ih _ _ next depth htail

end SameLevels

/-! ### Depth and counts -/

namespace Circuit

variable {c : Circuit} {f : Nat → Nat} {name : String} {lines : List Line}

theorem depth_relabel (inj : ∀ q < c.width, ∀ r < c.width, f q = f r → q = r)
    (lt : ∀ q < c.width, f q < lines.length) (hg : ∀ g ∈ c.gates, ∀ q ∈ g.lines, q < c.width) :
    depth ⟨name, lines, c.gates.map (·.relabel f)⟩ = c.depth := by
  have start : SameLevels f c.width (Array.replicate c.width 0) (Array.replicate lines.length 0) := by
    refine ⟨by simp, by simpa using lt, fun q hq => ?_⟩
    have there := lt q hq
    simp [hq, there]
  exact start.foldl_placeGate inj (_, 0) (_, 0) rfl hg

theorem cnotCount_relabel : cnotCount ⟨name, lines, c.gates.map (·.relabel f)⟩ = c.cnotCount := by
  simp only [cnotCount, List.countP_map, Function.comp_def, Gate.isCnot_relabel]

theorem nameCounts_relabel : nameCounts ⟨name, lines, c.gates.map (·.relabel f)⟩ = c.nameCounts := by
  simp only [nameCounts, List.map_map, Function.comp_def, Gate.name_relabel]

/-- The pairs are sent along with the lines. -/
theorem pairs_relabel : (Interactions.ofCircuit ⟨name, lines, c.gates.map (·.relabel f)⟩).pairs =
    (Interactions.ofCircuit c).pairs.map (Prod.map f f) := by
  simp only [Interactions.ofCircuit, List.filterMap_map, List.map_filterMap, Function.comp_def,
    Gate.cnotPair?_relabel]

end Circuit

end CnotRouting
