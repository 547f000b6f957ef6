import CnotRouting.CircuitRecords
import CnotRouting.Proofs.ExpandedCircuits

/-!
# Circuits with a log

A circuit is built by adding lines and appending gates, one at a time. The log of a circuit keeps
the number that each line was given, and the number of lines that there were when each gate was
appended. Records are loaded, circuits placed and expanded by nothing but such calls. Without its
log a circuit is the one that the same call makes of the circuit itself.
-/

namespace CnotRouting

/-! ### Runs seen through a map -/

section Runs

variable {ε α β σ τ : Type} {p : α → β} {q : σ → τ}

theorem map_bind_of_map {x : Except ε α} {y : Except ε β} {f : α → Except ε σ} {g : β → Except ε τ}
    (hx : x.map p = y) (hf : ∀ a, (f a).map q = g (p a)) : (x >>= f).map q = y >>= g := by
  cases x with
  | error e =>
    rw [← hx]
    rfl
  | ok a =>
    rw [← hx]
    exact hf a

theorem map_eq_ok_iff {x : Except ε α} {b : β} :
    x.map p = .ok b ↔ ∃ a, x = .ok a ∧ p a = b := by
  cases x <;> simp [Except.map]

theorem map_eq_error_iff {x : Except ε α} {e : ε} : x.map p = .error e ↔ x = .error e := by
  cases x <;> simp [Except.map]

theorem map_mapError {δ : Type} (f : ε → δ) (x : Except ε α) :
    (x.mapError f).map p = (x.map p).mapError f := by
  cases x <;> rfl

theorem map_foldlM {f : σ → α → Except ε σ} {g : τ → α → Except ε τ}
    (h : ∀ s a, (f s a).map q = g (q s) a) (l : List α) (s : σ) :
    (l.foldlM f s).map q = l.foldlM g (q s) := by
  induction l generalizing s with
  | nil => rfl
  | cons a l ih =>
    rw [List.foldlM_cons, List.foldlM_cons]
    exact map_bind_of_map (h s a) ih

end Runs

/-! ### Circuits gate by gate -/

namespace Circuit

theorem append_of_fault? (c : Circuit) {g : Gate} {fault : GateFault}
    (h : g.fault? c.width = some fault) : c.append g = .error fault := by
  rw [append, extend, List.findSome?_singleton, h]

theorem append_of_accepted (c : Circuit) {g : Gate} (h : g.fault? c.width = none) :
    c.append g = .ok { c with gates := c.gates ++ [g] } :=
  extend_eq_ok (by simpa using h)

theorem append_eq_ok_iff {c next : Circuit} {g : Gate} :
    c.append g = .ok next ↔ g.fault? c.width = none ∧ next = { c with gates := c.gates ++ [g] } := by
  cases hg : g.fault? c.width with
  | some fault => simp [append_of_fault? c hg]
  | none => simp [append_of_accepted c hg, eq_comm]

/-- Gates that are appended together are appended one by one. -/
theorem extend_eq_foldlM (c : Circuit) (gates : List Gate) :
    c.extend gates = gates.foldlM append c := by
  induction gates generalizing c with
  | nil => simp [extend, pure, Except.pure]
  | cons g gates ih =>
    rw [List.foldlM_cons, append, extend, extend, List.findSome?_cons, List.findSome?_cons]
    cases hg : g.fault? c.width with
    | some fault => rfl
    | none =>
      refine Eq.trans ?_ (ih { c with gates := c.gates ++ [g] })
      simp [extend, width]

/-- Appends the expansion of the gate at a position. -/
def extendBy (d : Device) (c : Circuit) (entry : Gate × Nat) : Except RoutingError Circuit := do
  let gates ← d.expansion entry.2 entry.1
  (c.extend gates).mapError .gate

theorem extendBy_eq {d : Device} {c : Circuit} (h : c.width = d.size) (entry : Gate × Nat) :
    extendBy d c entry = do
      let gates ← d.checkedExpansion entry.2 entry.1
      return { c with gates := c.gates ++ gates } := by
  unfold extendBy Device.checkedExpansion
  cases d.expansion entry.2 entry.1 with
  | error e => rfl
  | ok gates =>
    rw [bind_of_ok rfl, bind_of_ok rfl, extend, h]
    cases gates.findSome? (Gate.fault? d.size) <;> rfl

/-- A circuit is expanded gate by gate. -/
theorem foldlM_extendBy {d : Device} (entries : List (Gate × Nat)) {c : Circuit}
    (h : c.width = d.size) :
    entries.foldlM (extendBy d) c = do
      let parts ← entries.mapM fun entry => d.checkedExpansion entry.2 entry.1
      return { c with gates := c.gates ++ parts.flatten } := by
  induction entries generalizing c with
  | nil => simp
  | cons entry entries ih =>
    rw [List.foldlM_cons, List.mapM_cons, extendBy_eq h]
    cases d.checkedExpansion entry.2 entry.1 with
    | error e => rfl
    | ok gates =>
      refine (ih (c := { c with gates := c.gates ++ gates }) h).trans ?_
      rw [bind_of_ok rfl]
      cases entries.mapM fun entry => d.checkedExpansion entry.2 entry.1 with
      | error e => rfl
      | ok parts => simp [bind, Except.bind, pure, Except.pure]

theorem expand_eq_foldlM (c : Circuit) (d : Device) (fits : ¬ d.size < c.width) :
    c.expand d = c.gates.zipIdx.foldlM (extendBy d) (c.cleared.padTo d.size) := by
  have width : (c.cleared.padTo d.size).width = d.size := width_padTo (Nat.not_lt.1 fits)
  rw [expand, if_neg fits, foldlM_extendBy _ width]
  rfl

end Circuit

/-! ### Logs -/

/-- A circuit with the number that each line was given, and the number of lines that there were when
each gate was appended. -/
structure CircuitLog where
  name : String
  lines : List (Nat × Line)
  gates : List (Nat × Gate)

namespace CircuitLog

/-- The number of lines. -/
def width (log : CircuitLog) : Nat := log.lines.length

/-- The circuit without its log. -/
def circuit (log : CircuitLog) : Circuit :=
  ⟨log.name, log.lines.map Prod.snd, log.gates.map Prod.snd⟩

def empty (name : String) : CircuitLog := ⟨name, [], []⟩

/-- Adds a line under the next number. -/
def addLine (log : CircuitLog) (l : Line) : CircuitLog :=
  { log with lines := log.lines ++ [(log.width, l)] }

def addLines (log : CircuitLog) (lines : List Line) : CircuitLog := lines.foldl addLine log

/-- The same name and lines, under the same numbers, without the gates. -/
def cleared (log : CircuitLog) : CircuitLog := { log with gates := [] }

/-- Appends a gate, unless it is at fault. -/
def append (log : CircuitLog) (g : Gate) : Except GateFault CircuitLog :=
  match g.fault? log.width with
  | some fault => .error fault
  | none => .ok { log with gates := log.gates ++ [(log.width, g)] }

def extend (log : CircuitLog) (gates : List Gate) : Except GateFault CircuitLog :=
  gates.foldlM append log

def ofWidth (name : String) (width : Nat) : CircuitLog :=
  (empty name).addLines (List.replicate width .unnamed)

/-- Builds the circuit of a record: its lines under new numbers, then its gates. -/
def ofRecord (r : CircuitRecord) : Except GateFault CircuitLog :=
  ((empty r.name).addLines (r.lines.map Prod.snd)).extend r.gates

/-- Builds the circuit on its sites: a line for every site, then the renamed gates. -/
def place (log : CircuitLog) (p : Placement) (size : Nat) : Except RoutingError CircuitLog :=
  match p.fault? log.width size with
  | some fault => .error (.configuration fault)
  | none =>
    let sites := (empty log.name).addLines
      ((List.range size).map (p.lineAt (log.lines.map Prod.snd)))
    (sites.extend (log.gates.map fun entry => entry.2.relabel p.siteOf)).mapError .gate

/-- Appends the expansion of the gate at a position. -/
def extendBy (d : Device) (log : CircuitLog) (entry : Gate × Nat) :
    Except RoutingError CircuitLog := do
  let gates ← d.expansion entry.2 entry.1
  (log.extend gates).mapError .gate

/-- Builds the expanded circuit: the lines of the circuit, idle lines, and the expansions. -/
def expand (log : CircuitLog) (d : Device) : Except RoutingError CircuitLog :=
  if d.size < log.width then .error (.circuitTooLarge log.width d.size)
  else
    let idle := (List.range' log.width (d.size - log.width)).map Line.idle
    (log.gates.map Prod.snd).zipIdx.foldlM (extendBy d) (log.cleared.addLines idle)

/-! ### Logs of circuits -/

variable (log : CircuitLog)

@[simp] theorem width_circuit : log.circuit.width = log.width := by
  simp [circuit, Circuit.width, width]

@[simp] theorem circuit_addLine (l : Line) :
    (log.addLine l).circuit = log.circuit.addLine l := by
  simp [addLine, circuit, Circuit.addLine]

theorem circuit_addLines (lines : List Line) :
    (log.addLines lines).circuit =
      { log.circuit with lines := log.circuit.lines ++ lines } := by
  induction lines generalizing log with
  | nil => simp [addLines]
  | cons l lines ih =>
    refine (ih (log.addLine l)).trans ?_
    simp [Circuit.addLine]

theorem circuit_append (g : Gate) : (log.append g).map circuit = log.circuit.append g := by
  rw [append]
  cases h : g.fault? log.width with
  | some fault =>
    rw [Circuit.append_of_fault? _ ((width_circuit log).symm ▸ h)]
    rfl
  | none =>
    rw [Circuit.append_of_accepted _ ((width_circuit log).symm ▸ h)]
    simp [circuit, Except.map]

theorem circuit_extend (gates : List Gate) :
    (log.extend gates).map circuit = log.circuit.extend gates := by
  rw [Circuit.extend_eq_foldlM]
  exact map_foldlM circuit_append gates log

theorem circuit_ofWidth (name : String) (width : Nat) :
    (ofWidth name width).circuit = Circuit.ofWidth name width := by
  rw [ofWidth, circuit_addLines]
  rfl

theorem circuit_ofRecord (r : CircuitRecord) : (ofRecord r).map circuit = r.circuit := by
  rw [ofRecord, circuit_extend, circuit_addLines]
  rfl

theorem circuit_place (p : Placement) (size : Nat) :
    (log.place p size).map circuit = p.apply log.circuit size := by
  rw [place, Placement.apply, width_circuit]
  cases p.fault? log.width size with
  | some fault => rfl
  | none =>
    simp only [map_mapError, circuit_extend, circuit_addLines]
    simp [circuit, empty, Function.comp_def]

theorem circuit_extendBy (d : Device) (entry : Gate × Nat) :
    (log.extendBy d entry).map circuit = log.circuit.extendBy d entry := by
  unfold extendBy Circuit.extendBy
  cases d.expansion entry.2 entry.1 with
  | error e => rfl
  | ok gates => rw [bind_of_ok rfl, bind_of_ok rfl, map_mapError, circuit_extend]

theorem circuit_expand (d : Device) : (log.expand d).map circuit = log.circuit.expand d := by
  by_cases fits : d.size < log.width
  · rw [expand, if_pos fits, Circuit.expand, width_circuit, if_pos fits]
    rfl
  · let idle := (List.range' log.width (d.size - log.width)).map Line.idle
    have padded : (log.cleared.addLines idle).circuit = log.circuit.cleared.padTo d.size := by
      rw [circuit_addLines, Circuit.padTo, Circuit.width_cleared, width_circuit]
      rfl
    rw [expand, if_neg fits, Circuit.expand_eq_foldlM _ _ (width_circuit log ▸ fits), ← padded]
    exact map_foldlM (fun log entry => circuit_extendBy log d entry) _ _

/-! ### Sound logs -/

/-- The lines have the numbers of their positions. Every gate was accepted when it was appended,
by a circuit that had no more lines than it has now. -/
structure IsSound (log : CircuitLog) : Prop where
  numbered : log.lines.map Prod.fst = List.range log.width
  accepted : ∀ entry ∈ log.gates, entry.1 ≤ log.width ∧ entry.2.fault? entry.1 = none

variable {log : CircuitLog}

theorem isSound_empty (name : String) : (empty name).IsSound :=
  ⟨rfl, by simp [empty]⟩

namespace IsSound

theorem addLine (h : log.IsSound) (l : Line) : (log.addLine l).IsSound := by
  have width : (log.addLine l).width = log.width + 1 := by
    simp [CircuitLog.addLine, CircuitLog.width]
  constructor
  · rw [width, List.range_succ, ← h.numbered]
    simp [CircuitLog.addLine]
  · intro entry hentry
    obtain ⟨before, accepted⟩ := h.accepted entry hentry
    exact ⟨by omega, accepted⟩

theorem addLines (h : log.IsSound) (lines : List Line) : (log.addLines lines).IsSound := by
  induction lines generalizing log with
  | nil => exact h
  | cons l lines ih => exact ih (h.addLine l)

theorem cleared (h : log.IsSound) : log.cleared.IsSound :=
  ⟨h.numbered, by simp [CircuitLog.cleared]⟩

theorem append {next : CircuitLog} {g : Gate} (h : log.IsSound) (step : log.append g = .ok next) :
    next.IsSound := by
  rw [CircuitLog.append] at step
  split at step
  · cases step
  · rename_i accepted
    cases step
    refine ⟨h.numbered, fun entry hentry => ?_⟩
    rcases List.mem_append.1 hentry with hentry | hentry
    · exact h.accepted entry hentry
    · obtain rfl := List.mem_singleton.1 hentry
      exact ⟨Nat.le_refl _, accepted⟩

theorem extend {next : CircuitLog} {gates : List Gate} (h : log.IsSound)
    (run : log.extend gates = .ok next) : next.IsSound :=
  foldlM_preserves (fun _ _ _ => append) h run

end IsSound

end CircuitLog

end CnotRouting
