import CnotRouting.Proofs.LoggedCircuits

/-!
# Built circuits

Whatever calls a circuit was built by, in any order and whether they succeeded or not, its lines are
numbered by their positions, and every gate was accepted by the lines that there were at the time. A
gate is refused for the first of its lines that is at fault, and the circuit stays as it was.
-/

namespace CnotRouting

/-! ### Accepted and refused gates -/

/-- A gate that has a target and lists distinct lines, controls first, out of `width` lines. -/
structure Gate.Suits (g : Gate) (width : Nat) : Prop where
  target : g.targets ≠ []
  distinct : g.lines.Nodup
  found : ∀ q ∈ g.lines, q < width

theorem Gate.Suits.mono {g : Gate} {width more : Nat} (h : g.Suits width) (le : width ≤ more) :
    g.Suits more :=
  ⟨h.target, h.distinct, fun q hq => Nat.lt_of_lt_of_le (h.found q hq) le⟩

/-- The fault that a gate is refused for: it has no target, or one of its lines is the first that is
not among `width` lines or occurs before. -/
inductive Gate.IsRefusedFor (g : Gate) (width : Nat) : GateFault → Prop where
  | noTarget (none : g.targets = []) : IsRefusedFor g width (.noTarget g.name)
  | lineNotFound {before after : List Nat} {q : Nat} (target : g.targets ≠ [])
      (lines : g.lines = before ++ q :: after) (distinct : before.Nodup)
      (found : ∀ l ∈ before, l < width) (absent : width ≤ q) :
      IsRefusedFor g width (.lineNotFound q g.name)
  | lineRepeated {before after : List Nat} {q : Nat} (target : g.targets ≠ [])
      (lines : g.lines = before ++ q :: after) (distinct : before.Nodup)
      (found : ∀ l ∈ before, l < width) (present : q < width) (again : q ∈ before) :
      IsRefusedFor g width (.lineRepeated q g.name)

theorem Gate.fault?_eq_none_iff_suits {g : Gate} {width : Nat} :
    g.fault? width = none ↔ g.Suits width := by
  rw [fault?_eq_none_iff]
  exact ⟨fun ⟨target, distinct, found⟩ => ⟨target, distinct, found⟩,
    fun ⟨target, distinct, found⟩ => ⟨target, distinct, found⟩⟩

/-- The lines before the one at fault are accepted. -/
theorem exists_of_firstLineFault? {width : Nat} {gate : String} {seen lines : List Nat}
    {fault : GateFault} (h : firstLineFault? width gate seen lines = some fault) :
    ∃ before q after, lines = before ++ q :: after ∧
      firstLineFault? width gate seen before = none ∧
      (width ≤ q ∧ fault = .lineNotFound q gate ∨
        q < width ∧ (q ∈ seen ∨ q ∈ before) ∧ fault = .lineRepeated q gate) := by
  induction lines generalizing seen with
  | nil => cases h
  | cons q rest ih =>
    rw [firstLineFault?] at h
    split at h
    · rename_i absent
      cases h
      exact ⟨[], q, rest, rfl, rfl, .inl ⟨absent, rfl⟩⟩
    · rename_i present
      split at h
      · rename_i again
        cases h
        exact ⟨[], q, rest, rfl, rfl, .inr ⟨Nat.not_le.1 present, .inl again, rfl⟩⟩
      · rename_i new
        obtain ⟨before, r, after, rfl, accepted, offence⟩ := ih h
        refine ⟨q :: before, r, after, rfl, ?_, ?_⟩
        · rw [firstLineFault?, if_neg present, if_neg new, accepted]
        · simpa [or_assoc, or_left_comm] using offence

theorem Gate.isRefusedFor_of_fault? {g : Gate} {width : Nat} {fault : GateFault}
    (h : g.fault? width = some fault) : g.IsRefusedFor width fault := by
  rw [fault?] at h
  split at h
  · rename_i none
    cases h
    exact .noTarget (List.isEmpty_iff.1 none)
  · rename_i some
    have target : g.targets ≠ [] := by simpa using some
    obtain ⟨before, q, after, lines, accepted, offence⟩ := exists_of_firstLineFault? h
    obtain ⟨found, distinct⟩ := firstLineFault?_eq_none_iff.1 accepted
    have found : ∀ l ∈ before, l < width := fun l hl => (found l hl).1
    rcases offence with ⟨absent, rfl⟩ | ⟨present, again, rfl⟩
    · exact .lineNotFound target lines distinct found absent
    · exact .lineRepeated target lines distinct found present (by simpa using again)

/-! ### Calls -/

/-- The calls that make or change a circuit. A call for one kind of gate appends that gate. -/
inductive BuilderCall where
  | new (name : String)
  | ofWidth (name : String) (width : Nat)
  | clear
  | addLine (l : Line)
  | append (g : Gate)
  | load (r : CircuitRecord)
  | place (p : Placement) (size : Nat)
  | expand (d : Device)

namespace Circuit

/-- What a call makes of a circuit, or its error. -/
def call (c : Circuit) : BuilderCall → Except RoutingError Circuit
  | .new name => .ok (empty name)
  | .ofWidth name width => .ok (ofWidth name width)
  | .clear => .ok c.cleared
  | .addLine l => .ok (c.addLine l)
  | .append g => (c.append g).mapError .gate
  | .load r => r.circuit.mapError .gate
  | .place p size => p.apply c size
  | .expand d => c.expand d

/-- The circuit after a call. A call that fails leaves it as it was. -/
def step (c : Circuit) (x : BuilderCall) : Circuit := (c.call x).toOption.getD c

/-- The circuit after a sequence of calls. -/
def after (c : Circuit) (calls : List BuilderCall) : Circuit := calls.foldl step c

end Circuit

namespace CircuitLog

def call (log : CircuitLog) : BuilderCall → Except RoutingError CircuitLog
  | .new name => .ok (empty name)
  | .ofWidth name width => .ok (ofWidth name width)
  | .clear => .ok log.cleared
  | .addLine l => .ok (log.addLine l)
  | .append g => (log.append g).mapError .gate
  | .load r => (ofRecord r).mapError .gate
  | .place p size => log.place p size
  | .expand d => log.expand d

def step (log : CircuitLog) (x : BuilderCall) : CircuitLog := (log.call x).toOption.getD log

/-- The log after a sequence of calls. -/
def after (log : CircuitLog) (calls : List BuilderCall) : CircuitLog := calls.foldl step log

theorem circuit_call (log : CircuitLog) (x : BuilderCall) :
    (log.call x).map circuit = log.circuit.call x := by
  cases x with
  | new name => rfl
  | ofWidth name width => exact congrArg Except.ok (circuit_ofWidth name width)
  | clear => rfl
  | addLine l => exact congrArg Except.ok (circuit_addLine log l)
  | append g => rw [call, map_mapError, circuit_append, Circuit.call]
  | load r => rw [call, map_mapError, circuit_ofRecord, Circuit.call]
  | place p size => exact circuit_place log p size
  | expand d => exact circuit_expand log d

theorem circuit_step (log : CircuitLog) (x : BuilderCall) :
    (log.step x).circuit = log.circuit.step x := by
  rw [step, Circuit.step, ← circuit_call]
  cases log.call x <;> rfl

/-- Without its log, a circuit is built by the same calls. -/
theorem circuit_after (log : CircuitLog) (calls : List BuilderCall) :
    (log.after calls).circuit = log.circuit.after calls := by
  induction calls generalizing log with
  | nil => rfl
  | cons x calls ih =>
    rw [after, Circuit.after, List.foldl_cons, List.foldl_cons, ← circuit_step]
    exact ih (log.step x)

namespace IsSound

variable {log next : CircuitLog}

theorem place {p : Placement} {size : Nat} (run : log.place p size = .ok next) :
    next.IsSound := by
  rw [CircuitLog.place] at run
  split at run
  · cases run
  · exact ((isSound_empty _).addLines _).extend (mapError_eq_ok_iff.1 run)

theorem extendBy {d : Device} {entry : Gate × Nat} (h : log.IsSound)
    (run : log.extendBy d entry = .ok next) : next.IsSound := by
  obtain ⟨gates, -, run⟩ := bind_eq_ok_iff.1 run
  exact h.extend (mapError_eq_ok_iff.1 run)

theorem expand {d : Device} (h : log.IsSound) (run : log.expand d = .ok next) : next.IsSound := by
  rw [CircuitLog.expand] at run
  split at run
  · cases run
  · exact foldlM_preserves (fun _ _ _ => extendBy) (h.cleared.addLines _) run

theorem call {x : BuilderCall} (h : log.IsSound) (run : log.call x = .ok next) : next.IsSound := by
  cases x with
  | new name =>
    cases run
    exact isSound_empty name
  | ofWidth name width =>
    cases run
    exact (isSound_empty name).addLines _
  | clear =>
    cases run
    exact h.cleared
  | addLine l =>
    cases run
    exact h.addLine l
  | append g => exact h.append (mapError_eq_ok_iff.1 run)
  | load r => exact ((isSound_empty _).addLines _).extend (mapError_eq_ok_iff.1 run)
  | place p size => exact place run
  | expand d => exact h.expand run

theorem step (h : log.IsSound) (x : BuilderCall) : (log.step x).IsSound := by
  rw [CircuitLog.step]
  cases run : log.call x with
  | error e => exact h
  | ok next => exact h.call run

theorem after (h : log.IsSound) (calls : List BuilderCall) : (log.after calls).IsSound := by
  induction calls generalizing log with
  | nil => exact h
  | cons x calls ih => exact ih (h.step x)

/-- The numbers are those of the record of the circuit. -/
theorem lines_record (h : log.IsSound) : log.circuit.record.lines = log.lines := by
  apply List.ext_getElem
  · simp [Circuit.record, circuit]
  · intro i _ hi
    have number : log.lines[i].1 = i := by
      have same : (log.lines.map Prod.fst)[i]? = (List.range log.width)[i]? := by rw [h.numbered]
      simpa [hi, show i < log.width from hi] using same
    simp only [Circuit.record, circuit, List.getElem_map, List.getElem_zipIdx, Nat.zero_add]
    exact Prod.ext number.symm rfl

/-- A gate that was accepted is accepted still, for lines are only added. -/
theorem isValid (h : log.IsSound) : log.circuit.IsValid := by
  intro g hg
  obtain ⟨entry, hentry, rfl⟩ := List.mem_map.1 hg
  obtain ⟨earlier, accepted⟩ := h.accepted entry hentry
  have suits := (Gate.fault?_eq_none_iff_suits.1 accepted).mono earlier
  rw [width_circuit]
  exact Gate.fault?_eq_none_iff_suits.2 suits

end IsSound

end CircuitLog

/-- A log is placed where its circuit is. -/
theorem CircuitLog.exists_place {log : CircuitLog} {p : Placement} {size : Nat} {out : Circuit}
    (run : p.apply log.circuit size = .ok out) :
    ∃ placed, log.place p size = .ok placed ∧ placed.IsSound ∧ placed.circuit = out := by
  obtain ⟨placed, hplace, same⟩ := map_eq_ok_iff.1 ((circuit_place log p size).trans run)
  exact ⟨placed, hplace, IsSound.place hplace, same⟩

namespace Circuit

/-- Every circuit that is built by calls is valid. -/
theorem isValid_after (calls : List BuilderCall) : ((empty "").after calls).IsValid := by
  have built : ((CircuitLog.empty "").after calls).circuit = (empty "").after calls :=
    CircuitLog.circuit_after (.empty "") calls
  exact built ▸ ((CircuitLog.isSound_empty "").after calls).isValid

theorem after_concat (c : Circuit) (calls : List BuilderCall) (x : BuilderCall) :
    c.after (calls ++ [x]) = (c.after calls).step x := by
  simp [after]

end Circuit

/-- A circuit is built by any calls, failing ones among them. Its lines have the numbers of their
positions, and each of its gates suited the lines that there were when it was appended. The next
gate is appended if it suits the lines that there are. If not, it is refused for the first line at
fault, and the circuit stays as it was. -/
theorem built_circuit_accepts_suited_gates (calls : List BuilderCall) :
    let log := (CircuitLog.empty "").after calls
    let c := (Circuit.empty "").after calls
    log.circuit = c ∧
      (c.record.lines = log.lines ∧ log.lines.map Prod.fst = List.range c.width) ∧
      (∀ entry ∈ log.gates, entry.1 ≤ c.width ∧ entry.2.Suits entry.1) ∧
      ∀ g : Gate,
        let next := (Circuit.empty "").after (calls ++ [.append g])
        (g.Suits c.width →
          c.append g = .ok next ∧ next = { c with gates := c.gates ++ [g] }) ∧
        (¬g.Suits c.width →
          next = c ∧ ∃ fault, c.append g = .error fault ∧ g.IsRefusedFor c.width fault) := by
  intro log c
  have circuit : log.circuit = c := CircuitLog.circuit_after (.empty "") calls
  have sound : log.IsSound := (CircuitLog.isSound_empty "").after calls
  have width : log.width = c.width := by rw [← circuit, CircuitLog.width_circuit]
  refine ⟨circuit, ⟨circuit ▸ sound.lines_record, width ▸ sound.numbered⟩, ?_, ?_⟩
  · intro entry hentry
    obtain ⟨earlier, accepted⟩ := sound.accepted entry hentry
    exact ⟨width ▸ earlier, Gate.fault?_eq_none_iff_suits.1 accepted⟩
  · intro g next
    have step : next = c.step (.append g) := Circuit.after_concat _ calls _
    constructor
    · intro suits
      have accepted := c.append_of_accepted (Gate.fault?_eq_none_iff_suits.2 suits)
      rw [Circuit.step, Circuit.call, accepted] at step
      exact ⟨step ▸ accepted, step⟩
    · intro unsuited
      have faulty := mt Gate.fault?_eq_none_iff_suits.1 unsuited
      obtain ⟨fault, hfault⟩ := Option.ne_none_iff_exists'.1 faulty
      have refused := c.append_of_fault? hfault
      rw [Circuit.step, Circuit.call, refused] at step
      exact ⟨step, fault, refused, Gate.isRefusedFor_of_fault? hfault⟩

/-- The CNOT is refused as long as there is one line only. -/
example :
    ((CircuitLog.empty "").after [.ofWidth "" 1, .append (.not 0), .append (.cnot 0 1),
      .addLine .unnamed, .append (.cnot 0 1)]).gates = [(1, .not 0), (2, .cnot 0 1)] :=
  rfl

end CnotRouting
