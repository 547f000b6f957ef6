import CnotRouting.Proofs.DeviceLines
import CnotRouting.Proofs.ReadDevices

/-!
# Routes read as they were written

A reader takes from the front of its tokens or rows what was written there, returns what it was
written for, and leaves what follows. This is so for the routes of a graph that is not too large,
provided that every route serves its pair.
-/

namespace CnotRouting

/-- Whether a reader returns `a` where the given words are written, and leaves what follows. -/
def Reads {ι ω α : Type} (shown : ι → ω) (read : List ι → Except FormatError (α × List ι))
    (written : List ω) (a : α) : Prop :=
  ∀ items more, items.map shown = written ++ more →
    ∃ rest, read items = .ok (a, rest) ∧ rest.map shown = more

theorem numeral_written {t : Token} {n : Nat} (h : t.word = n.repr) (bound : n < wordBound)
    (role : Numeral) : t.numeral role = .ok n := by
  rw [Token.numeral, h, numeral?_repr bound]

theorem qubit_written {t : Token} {q size : Nat} (h : t.word = q.repr) (hq : q < size)
    (hsize : size ≤ wordBound) : t.qubit size = .ok q := by
  exact bind_eq_ok_iff.2
    ⟨q, numeral_written h (Nat.lt_of_lt_of_le hq hsize) _, require_bind_eq_ok_iff.2 ⟨hq, rfl⟩⟩

theorem readQubits_written {last size : Nat} (hsize : size ≤ wordBound) {qubits : List Nat}
    (h : ∀ q ∈ qubits, q < size) {tokens : List Token} {more : List String}
    (written : tokens.map Token.word = qubits.map Nat.repr ++ more) :
    readQubits last size qubits.length tokens = .ok qubits := by
  induction qubits generalizing tokens with
  | nil => rfl
  | cons q qubits ih =>
    obtain ⟨hq, hqubits⟩ := List.forall_mem_cons.1 h
    obtain ⟨t, rest, rfl, ht, hrest⟩ := List.map_eq_cons_iff.1 written
    simp only [List.length_cons, readQubits, qubit_written ht hq hsize, ih hqubits hrest]
    rfl

theorem opensCost_token (k : StepKind) : opensCost k.token = false := by
  rcases k with ⟨_ | _, _ | _⟩ | ⟨_ | _, _ | _⟩ | _ | _ | _ <;> decide

namespace Step.IsNative

variable {g : CouplingGraph} {s : Step}

theorem length_operands (h : s.IsNative g) : s.operands.length = s.kind.arity := by
  by_cases hk : s.kind = .cascade
  · obtain ⟨c, hc⟩ := Option.isSome_iff_exists.1 (h.operands.2 hk)
    simp [Step.operands, StepKind.arity, hk, hc]
  · have harity : s.kind.arity = 2 := by
      cases hkind : s.kind <;> simp_all [StepKind.arity]
    simp [Step.operands, h.third_eq_none hk, harity]

theorem operands_lt (h : s.IsNative g) : ∀ q ∈ s.operands, q < g.size := by
  obtain ⟨ha, hb⟩ := h.lt
  refine List.forall_mem_cons.2 ⟨ha, List.forall_mem_cons.2 ⟨hb, ?_⟩⟩
  intro c hc
  have hc : s.c = some c := by simpa using hc
  have hk : s.kind = .cascade := h.operands.1 (by simp [hc])
  have far : s.far = c := by simp [Step.far, hc]
  exact far ▸ (g.lt_size_of_hasEdge (h.hasEdge_far hk)).2

theorem requireEdges_eq_ok (h : s.IsNative g) (line : Nat) : requireEdges g line s = .ok () := by
  have none : s.edges.find? (fun e => !g.hasEdge e.1 e.2) = none := by
    rw [List.find?_eq_none]
    intro e he
    simp [h.edges e he]
  rw [requireEdges, none]

end Step.IsNative

theorem Step.ofOperands_operands (s : Step) : Step.ofOperands s.kind s.operands = s := by
  obtain ⟨kind, a, b, c⟩ := s
  cases c <;> rfl

theorem reads_steps {g : CouplingGraph} (hsize : g.size ≤ wordBound) (last : Nat) {r : Route}
    (native : ∀ s ∈ r, s.IsNative g) :
    Reads Token.word (readSteps last g) (r.flatMap Step.words ++ ["cost"]) r := by
  induction r with
  | nil =>
    intro tokens more written
    obtain ⟨t, rest, rfl, ht, hrest⟩ := List.map_eq_cons_iff.1 written
    have opens : opensCost t.word = true := by
      rw [ht]
      decide
    exact ⟨rest, by rw [readSteps, if_pos opens], hrest⟩
  | cons s r ih =>
    obtain ⟨hs, hr⟩ := List.forall_mem_cons.1 native
    intro tokens more written
    rw [List.flatMap_cons, Step.words, List.append_assoc, List.append_assoc, List.cons_append]
      at written
    obtain ⟨t, rest, rfl, ht, hrest⟩ := List.map_eq_cons_iff.1 written
    -- the reader skips as many words as the kind has operands
    have later : (rest.drop s.kind.arity).map Token.word =
        r.flatMap Step.words ++ ["cost"] ++ more := by
      rw [List.map_drop, hrest, ← hs.length_operands, ← List.length_map, List.drop_left,
        List.append_assoc]
    obtain ⟨rest', hread, hrest'⟩ := ih hr _ _ later
    have step : opensCost t.word ≠ true := by simp [ht, opensCost_token]
    have operands : readQubits last g.size s.kind.arity rest = .ok s.operands :=
      hs.length_operands ▸ readQubits_written hsize hs.operands_lt hrest
    refine ⟨rest', ?_, hrest'⟩
    rw [readSteps, if_neg step, ht, StepKind.ofToken?_token]
    refine bind_eq_ok_iff.2 ⟨_, operands, ?_⟩
    rw [Step.ofOperands_operands]
    exact bind_eq_ok_iff.2 ⟨_, hs.requireEdges_eq_ok t.line, bind_eq_ok_iff.2 ⟨_, hread, rfl⟩⟩

theorem takeToken_written {last : Nat} {needed : Expectation} {tokens : List Token} {word : String}
    {more : List String} (written : tokens.map Token.word = word :: more) :
    ∃ t rest, takeToken last needed tokens = .ok (t, rest) ∧ t.word = word ∧
      rest.map Token.word = more := by
  obtain ⟨t, rest, rfl, ht, hrest⟩ := List.map_eq_cons_iff.1 written
  exact ⟨t, rest, rfl, ht, hrest⟩

theorem takeKeyword_written {last : Nat} {tokens : List Token} {word : String} {more : List String}
    (written : tokens.map Token.word = word :: more) :
    ∃ rest, takeKeyword last word tokens = .ok rest ∧ rest.map Token.word = more := by
  obtain ⟨t, rest, htake, ht, hrest⟩ := takeToken_written written
  exact ⟨rest, bind_eq_ok_iff.2 ⟨_, htake, require_bind_eq_ok_iff.2 ⟨ht, rfl⟩⟩, hrest⟩

theorem takeNumeral_written {last : Nat} {role : Numeral} {tokens : List Token} {n : Nat}
    {more : List String} (bound : n < wordBound)
    (written : tokens.map Token.word = n.repr :: more) :
    ∃ line rest, takeNumeral last role tokens = .ok (line, n, rest) ∧
      rest.map Token.word = more := by
  obtain ⟨t, rest, htake, ht, hrest⟩ := takeToken_written written
  refine ⟨t.line, rest, ?_, hrest⟩
  exact bind_eq_ok_iff.2 ⟨_, htake, bind_eq_ok_iff.2 ⟨_, numeral_written ht bound role, rfl⟩⟩

theorem reads_route {g : CouplingGraph} (hsize : g.size ≤ wordBound) (last : Nat) {v w : Nat}
    {r : Route} (serves : r.Serves g v w) (bound : r.cost < wordBound) :
    Reads Token.word (readRoute last g v w r.cost) (routeLines (v, w, r)).flatten r := by
  intro tokens more written
  have written : tokens.map Token.word = routeMarker v w :: "=>" ::
      (r.flatMap Step.words ++ ["cost"] ++ "=" :: r.cost.repr :: more) := by
    simpa [routeLines, Route.lines, List.flatMap] using written
  obtain ⟨t, afterMarker, hmarker, ht, written⟩ := takeToken_written written
  obtain ⟨afterArrow, harrow, written⟩ := takeKeyword_written written
  obtain ⟨afterSteps, hsteps, written⟩ := reads_steps hsize last serves.native _ _ written
  obtain ⟨afterEquals, hequals, written⟩ := takeKeyword_written written
  obtain ⟨line, rest, hcost, written⟩ := takeNumeral_written bound written
  refine ⟨rest, ?_, written⟩
  refine bind_eq_ok_iff.2 ⟨_, hmarker, require_bind_eq_ok_iff.2 ⟨ht, ?_⟩⟩
  refine bind_eq_ok_iff.2 ⟨_, harrow, bind_eq_ok_iff.2 ⟨_, hsteps, ?_⟩⟩
  refine bind_eq_ok_iff.2 ⟨_, hequals, bind_eq_ok_iff.2 ⟨_, hcost, ?_⟩⟩
  refine require_bind_eq_ok_iff.2 ⟨rfl, require_bind_eq_ok_iff.2 ⟨rfl, ?_⟩⟩
  exact require_bind_eq_ok_iff.2 ⟨serves.realizes, rfl⟩

/-- The entry that a pair has among the routes that are written. -/
def writtenRoute? (entry : (Nat × Nat) × Route) : Option (Nat × Nat × Route) :=
  if entry.1.1 = entry.1.2 then none else some (entry.1.1, entry.1.2, entry.2)

theorem reads_routes {g : CouplingGraph} (hsize : g.size ≤ wordBound) (last : Nat)
    {entries : List ((Nat × Nat) × Route)} (h : ∀ e ∈ entries, IsEntry g e.1 e.2)
    (bound : ∀ e ∈ entries, e.2.cost < wordBound) :
    Reads Token.word (readRoutes last g (entries.map fun e => (e.1, e.2.cost)))
      ((entries.filterMap writtenRoute?).flatMap routeLines).flatten (entries.map Prod.snd) := by
  induction entries with
  | nil => exact fun tokens more written => ⟨tokens, rfl, written⟩
  | cons entry entries ih =>
    obtain ⟨⟨v, w⟩, r⟩ := entry
    obtain ⟨hentry, htail⟩ := List.forall_mem_cons.1 h
    obtain ⟨hbound, htails⟩ := List.forall_mem_cons.1 bound
    intro tokens more written
    by_cases hvw : v = w
    · obtain rfl : r = [] := by simpa [IsEntry, hvw] using hentry
      rw [List.filterMap_cons_none (by simp [writtenRoute?, hvw])] at written
      obtain ⟨rest, hmore, hrest⟩ := ih htail htails tokens more written
      refine ⟨rest, ?_, hrest⟩
      rw [List.map_cons, readRoutes, if_pos hvw]
      exact bind_eq_ok_iff.2 ⟨_, hmore, rfl⟩
    · have serves : r.Serves g v w := by simpa [IsEntry, hvw] using hentry
      rw [List.filterMap_cons_some (b := (v, w, r)) (by simp [writtenRoute?, hvw]),
        List.flatMap_cons, List.flatten_append, List.append_assoc] at written
      obtain ⟨afterRoute, hroute, written⟩ := reads_route hsize last serves hbound _ _ written
      obtain ⟨rest, hmore, hrest⟩ := ih htail htails _ _ written
      refine ⟨rest, ?_, hrest⟩
      rw [List.map_cons, readRoutes, if_neg hvw]
      exact bind_eq_ok_iff.2 ⟨_, hroute, bind_eq_ok_iff.2 ⟨_, hmore, rfl⟩⟩

end CnotRouting
