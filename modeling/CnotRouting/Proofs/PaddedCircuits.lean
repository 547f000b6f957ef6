import CnotRouting.Proofs.FaithfulPlacements

/-!
# Padded circuits

A circuit gets an idle line for every further qubit of a device in two ways. It is placed with each
line on the site of its own number, where the idle sites are filled; or it is expanded, which adds
the idle lines after its own. Both ways build the same lines under the same numbers and keep the
gates, so that the placed circuit is expanded to the same circuit, or refused for the same reason.
-/

namespace CnotRouting

/-! ### The identity placement -/

namespace Placement

theorem lineAt_identity {lines : List Line} {l : Nat} (hl : l < lines.length) :
    (identity lines.length).lineAt lines l = lines[l] := by
  have there := (fits_identity (Nat.le_refl lines.length)).lineAt_siteOf hl hl
  rwa [siteOf_identity hl] at there

theorem lineAt_identity_idle {lines : List Line} {k : Nat} (hk : lines.length ≤ k) :
    (identity lines.length).lineAt lines k = .idle k := by
  refine lineAt_of_notMem fun taken => ?_
  exact Nat.not_lt.2 hk (List.mem_range.1 taken)

/-- The lines on the sites are those of the circuit, and idle lines after them. -/
theorem map_lineAt_identity {c : Circuit} {n : Nat} (fits : c.width ≤ n) :
    (List.range n).map ((identity c.width).lineAt c.lines) = (c.padTo n).lines := by
  have split : List.range n = List.range c.width ++ List.range' c.width (n - c.width) := by
    have joined := List.range'_append_1 (s := 0) (m := c.width) (n := n - c.width)
    rw [Nat.zero_add, Nat.add_sub_cancel' fits] at joined
    rw [List.range_eq_range', List.range_eq_range', joined]
  have own : (List.range c.width).map ((identity c.width).lineAt c.lines) = c.lines := by
    refine List.ext_getElem (by simp [Circuit.width]) fun l _ hl => ?_
    rw [List.getElem_map, List.getElem_range]
    exact lineAt_identity hl
  have idle : (List.range' c.width (n - c.width)).map ((identity c.width).lineAt c.lines) =
      (List.range' c.width (n - c.width)).map .idle :=
    List.map_congr_left fun k hk => lineAt_identity_idle (List.mem_range'_1.1 hk).1
  rw [split, List.map_append, own, idle]
  rfl

theorem relabel_identity {g : Gate} {width : Nat} (accepted : g.fault? width = none) :
    g.relabel (identity width).siteOf = g := by
  obtain ⟨-, -, below⟩ := Gate.fault?_eq_none_iff.1 accepted
  exact (Gate.relabel_congr fun q hq => siteOf_identity (below q hq)).trans g.relabel_id

theorem apply_identity {c : Circuit} (valid : c.IsValid) {n : Nat} (fits : c.width ≤ n) :
    (identity c.width).apply c n = .ok (c.padTo n) := by
  have gates : c.gates.map (·.relabel (identity c.width).siteOf) = c.gates :=
    (List.map_congr_left fun g hg => relabel_identity (valid g hg)).trans (List.map_id _)
  rw [apply_eq_ok (fits_identity fits) valid, map_lineAt_identity fits, gates]
  rfl

end Placement

/-- The idle lines that the expansion adds may be there before. -/
theorem Circuit.expand_padTo {c : Circuit} {d : Device} (fits : c.width ≤ d.size) :
    (c.padTo d.size).expand d = c.expand d := by
  have width := width_padTo fits
  have padded : (c.padTo d.size).padTo d.size = c.padTo d.size := by
    have full := padTo_width (c.padTo d.size)
    rwa [width] at full
  rw [expand, expand, width, padded, if_neg (Nat.not_lt.2 fits), if_neg (Nat.lt_irrefl _)]
  rfl

/-! ### Logs -/

namespace CircuitLog

variable {log log' : CircuitLog}

/-- The lines of the circuit and idle lines up to `size`, without the gates. -/
def padded (log : CircuitLog) (size : Nat) : CircuitLog :=
  log.cleared.addLines ((List.range' log.width (size - log.width)).map .idle)

theorem gates_addLines (log : CircuitLog) (lines : List Line) :
    (log.addLines lines).gates = log.gates := by
  induction lines generalizing log with
  | nil => rfl
  | cons l lines ih => exact ih (log.addLine l)

theorem circuit_padded (log : CircuitLog) (size : Nat) :
    (log.padded size).circuit = log.circuit.cleared.padTo size := by
  rw [padded, circuit_addLines, Circuit.padTo, Circuit.width_cleared, width_circuit]
  rfl

/-- Without gates, a sound log is known by its circuit. -/
theorem IsSound.eq_of_circuit (h : log.IsSound) (h' : log'.IsSound) (none : log.gates = [])
    (none' : log'.gates = []) (same : log.circuit = log'.circuit) : log = log' := by
  have lines : log.lines = log'.lines := by rw [← h.lines_record, ← h'.lines_record, same]
  have name : log.name = log'.name := congrArg Circuit.name same
  cases log
  cases log'
  simp_all

theorem expand_eq_foldlM {d : Device} (fits : log.width ≤ d.size) :
    log.expand d =
      (log.gates.map Prod.snd).zipIdx.foldlM (extendBy d) (log.padded d.size) := by
  rw [expand, if_neg (Nat.not_lt.2 fits)]
  rfl

namespace IsSound

variable (h : log.IsSound)
include h

theorem padded (size : Nat) : (log.padded size).IsSound := h.cleared.addLines _

/-- Under the identity, the padded circuit is built. -/
theorem exists_place_identity {size : Nat} (fits : log.width ≤ size) :
    ∃ placed, log.place (.identity log.width) size = .ok placed ∧ placed.IsSound ∧
      placed.circuit = log.circuit.padTo size := by
  have width : log.circuit.width = log.width := width_circuit log
  have run := Placement.apply_identity h.isValid (width.symm ▸ fits)
  rw [width] at run
  exact exists_place run

/-- Idle lines that are there before get the numbers that the expansion gives them. -/
theorem expand_of_padTo {placed : CircuitLog} (sound : placed.IsSound) {d : Device}
    (fits : log.width ≤ d.size) (same : placed.circuit = log.circuit.padTo d.size) :
    placed.expand d = log.expand d := by
  have narrow : log.circuit.width ≤ d.size := (width_circuit log).symm ▸ fits
  have width : placed.width = d.size := by
    rw [← width_circuit, same, Circuit.width_padTo narrow]
  have start : placed.padded d.size = log.padded d.size := by
    refine (sound.padded _).eq_of_circuit (h.padded _) (gates_addLines _ _) (gates_addLines _ _) ?_
    have full := Circuit.padTo_width placed.circuit.cleared
    rw [Circuit.width_cleared, width_circuit, width] at full
    rw [circuit_padded, circuit_padded, full, same]
    rfl
  have gates : placed.gates.map Prod.snd = log.gates.map Prod.snd := congrArg Circuit.gates same
  rw [expand_eq_foldlM width.le, expand_eq_foldlM fits, start, gates]

end IsSound

end CircuitLog

/-- A circuit that is built by any calls and fits a device can be placed with each line on the site
of its own number. This pads it with idle lines and no more: the placed circuit has the same
expansion as the circuit itself, down to the numbers of the lines, or the same error. -/
theorem expand_placed_under_identity (calls : List BuilderCall) (d : Device)
    (fits : ((Circuit.empty "").after calls).width ≤ d.size) :
    let log := (CircuitLog.empty "").after calls
    let c := (Circuit.empty "").after calls
    log.circuit = c ∧ ∃ placed, log.place (.identity c.width) d.size = .ok placed ∧
      placed.circuit = c.padTo d.size ∧
      (Placement.identity c.width).apply c d.size = .ok placed.circuit ∧
      placed.circuit.expand d = c.expand d ∧ placed.expand d = log.expand d := by
  intro log c
  have circuit : log.circuit = c := CircuitLog.circuit_after (.empty "") calls
  have sound : log.IsSound := (CircuitLog.isSound_empty "").after calls
  have width : log.width = c.width := by rw [← circuit, CircuitLog.width_circuit]
  have narrow : log.width ≤ d.size := width ▸ fits
  obtain ⟨placed, hplace, hplaced, same⟩ := sound.exists_place_identity narrow
  rw [circuit] at same
  refine ⟨circuit, placed, width ▸ hplace, same, ?_, ?_, ?_⟩
  · rw [same]
    exact Placement.apply_identity (Circuit.isValid_after calls) fits
  · rw [same]
    exact Circuit.expand_padTo fits
  · exact sound.expand_of_padTo hplaced narrow (circuit.symm ▸ same)

/-- Two lines, one of them with names, on three qubits. -/
theorem expand_placed_under_identity_chain_three :
    let calls : List BuilderCall := [.new "pair", .addLine (.named "a" "x"), .addLine .unnamed,
      .append (.cnotOnZero 1 0)]
    let d : Device := ⟨.chain 3, .ofRoutes 3 [[], [⟨.native, 0, 1, none⟩], [.cascade 0 1 2],
      [⟨.flip, 1, 0, none⟩], [], [⟨.native, 1, 2, none⟩], [], [⟨.flip, 2, 1, none⟩], []]⟩
    let log := (CircuitLog.empty "").after calls
    log.circuit.width ≤ d.size ∧ ∃ placed, log.place (.identity 2) d.size = .ok placed ∧
      placed.circuit.lines = [.named "a" "x", .unnamed, .idle 2] ∧
      placed.expand d = log.expand d := by
  intro calls d log
  have fits : ((Circuit.empty "").after calls).width ≤ d.size := by decide
  obtain ⟨circuit, placed, place, same, -, -, expand⟩ := expand_placed_under_identity calls d fits
  refine ⟨circuit ▸ fits, placed, place, ?_, expand⟩
  rw [same]
  rfl

end CnotRouting
