import CnotRouting.DeviceTexts
import CnotRouting.Proofs.ConsistentDevices

/-!
# Devices read from texts

What the reader of a device text accepts is consistent: the rows of the graph make a complete matrix
with an empty diagonal, every step it keeps is native to that graph, and every route realises the
CNOT of its pair. A device that is reloaded is the one that was read last.
-/

namespace CnotRouting

theorem require_bind_eq_ok_iff {α : Type} {p : Prop} [Decidable p] {line : Nat} {fault : FormatFault}
    {x : Except FormatError α} {a : α} :
    (require p line fault >>= fun _ => x) = .ok a ↔ p ∧ x = .ok a := by
  rw [bind_eq_ok_iff]
  simp

theorem readSize_eq_ok {rows rest : List TextRow} {n : Nat} (h : readSize rows = .ok (n, rest)) :
    n ≤ sizeLimit := by
  unfold readSize at h
  split at h
  · cases h
  · split at h
    · cases h
    · obtain ⟨hn, h⟩ := require_bind_eq_ok_iff.1 h
      cases h
      exact hn
  · cases h

/-- The rows of a matrix as they are read: each of the full length, each entry read on its own. -/
def IsReadRow {α : Type} (size : Nat) (readEntry : (line v w : Nat) → String → Except FormatError α)
    (v : Nat) (entries : List α) : Prop :=
  entries.length = size ∧
    ∀ w a, entries[w]? = some a → ∃ line word, readEntry line v w word = .ok a

theorem isReadRow_of_mapM {α : Type} {readEntry : (line v w : Nat) → String → Except FormatError α}
    {line v : Nat} {words : List String} {entries : List α}
    (h : (words.zipIdx.mapM fun (word, w) => readEntry line v w word) = .ok entries) :
    IsReadRow words.length readEntry v entries := by
  have each := mapM_eq_ok_iff.1 h
  refine ⟨by simpa using each.length_eq.symm, fun w a ha => ?_⟩
  have hw : w < words.length := by
    have := (List.getElem?_eq_some_iff.1 ha).1
    simpa [← each.length_eq] using this
  obtain ⟨a', ha', hread⟩ :=
    forall₂_getElem? each (i := w) (a := (words[w], w)) (by simp [hw])
  obtain rfl : a' = a := by
    rw [ha] at ha'
    cases ha'
    rfl
  exact ⟨line, words[w], hread⟩

theorem readMatrix_eq_ok {α : Type} {last size : Nat} {kind : MatrixRow}
    {readEntry : (line v w : Nat) → String → Except FormatError α} {qubits : List Nat}
    {rows rest : List TextRow} {entries : List α}
    (h : readMatrix last kind size readEntry qubits rows = .ok (entries, rest)) :
    ∃ read, entries = read.flatMap id ∧ List.Forall₂ (IsReadRow size readEntry) qubits read := by
  induction qubits generalizing rows entries with
  | nil =>
    simp only [readMatrix] at h
    cases h
    exact ⟨[], rfl, .nil⟩
  | cons v qubits ih =>
    cases rows with
    | nil => cases h
    | cons row rows =>
      simp only [readMatrix] at h
      obtain ⟨hlen, h⟩ := require_bind_eq_ok_iff.1 h
      obtain ⟨first, hfirst, h⟩ := bind_eq_ok_iff.1 h
      obtain ⟨⟨more, rest'⟩, hmore, h⟩ := bind_eq_ok_iff.1 h
      cases h
      obtain ⟨read, rfl, hread⟩ := ih hmore
      exact ⟨first :: read, by simp, .cons (hlen ▸ isReadRow_of_mapM hfirst) hread⟩

/-- A matrix that was read has all its entries, each at the place of its pair. -/
theorem readMatrix_square {α : Type} {last size : Nat} {kind : MatrixRow}
    {readEntry : (line v w : Nat) → String → Except FormatError α} {rows rest : List TextRow}
    {entries : List α}
    (h : readMatrix last kind size readEntry (List.range size) rows = .ok (entries, rest)) :
    entries.length = size * size ∧ ∀ v < size, ∀ w < size, ∀ a, entries[v * size + w]? = some a →
      ∃ line word, readEntry line v w word = .ok a := by
  obtain ⟨read, rfl, hread⟩ := readMatrix_eq_ok h
  have lengths : ∀ row ∈ read, (id row).length = size := by
    intro row hrow
    obtain ⟨i, hi⟩ := List.mem_iff_getElem?.1 hrow
    obtain ⟨v, -, hv⟩ := forall₂_getElem? hread.flip hi
    exact hv.1
  constructor
  · rw [length_flatMap_rows lengths, ← hread.length_eq, List.length_range]
  · intro v hv w hw a ha
    rw [getElem?_flatMap_rows lengths hw] at ha
    obtain ⟨row, hrow, hreadRow⟩ := forall₂_getElem? hread (List.getElem?_range hv)
    rw [hrow] at ha
    exact hreadRow.2 w a ha

/-- No mark on the diagonal is an edge. -/
theorem readMark_diagonal {line v : Nat} {word : String} {edge : Bool}
    (h : readMark line v v word = .ok edge) : edge = false := by
  rw [readMark] at h
  split at h
  · rw [if_pos rfl] at h
    cases h
  · split at h
    · cases h
      rfl
    · cases h

theorem isValid_of_readMatrix {last size : Nat} {rows rest : List TextRow} {marks : List Bool}
    (h : readMatrix last .graph size readMark (List.range size) rows = .ok (marks, rest)) :
    CouplingGraph.IsValid ⟨size, marks.toArray⟩ := by
  obtain ⟨hlen, hentry⟩ := readMatrix_square h
  refine ⟨by simpa using hlen, fun v => ?_⟩
  by_cases hv : v < size
  · have bound : v * size + v < marks.length := by
      rw [hlen]
      have := Nat.mul_le_mul_right size (Nat.succ_le_of_lt hv)
      rw [Nat.succ_mul] at this
      omega
    obtain ⟨line, word, hread⟩ := hentry v hv v hv _ (List.getElem?_eq_getElem bound)
    simp [CouplingGraph.hasEdge, hv, bound, readMark_diagonal hread]
  · simp [CouplingGraph.hasEdge, hv]

/-! ### Routes -/

theorem length_of_readQubits {last size count : Nat} {tokens : List Token} {qubits : List Nat}
    (h : readQubits last size count tokens = .ok qubits) : qubits.length = count := by
  induction count generalizing tokens qubits with
  | zero =>
    simp only [readQubits] at h
    cases h
    rfl
  | succ count ih =>
    cases tokens with
    | nil => cases h
    | cons t rest =>
      simp only [readQubits] at h
      obtain ⟨q, -, h⟩ := bind_eq_ok_iff.1 h
      obtain ⟨more, hmore, h⟩ := bind_eq_ok_iff.1 h
      cases h
      simp [ih hmore]

theorem isNative_of_read {g : CouplingGraph} {last line : Nat} {kind : StepKind}
    {operands : List Nat} {tokens : List Token}
    (hq : readQubits last g.size kind.arity tokens = .ok operands)
    (he : requireEdges g line (Step.ofOperands kind operands) = .ok ()) :
    (Step.ofOperands kind operands).IsNative g := by
  constructor
  · intro e hmem
    rw [requireEdges] at he
    split at he
    · rename_i hnone
      simpa using List.find?_eq_none.1 hnone e hmem
    · cases he
  · have hlen := length_of_readQubits hq
    cases kind <;> simp [Step.ofOperands, StepKind.arity] at hlen ⊢ <;> omega

/-- Every step that the reader keeps is native. -/
theorem isNative_of_readSteps {g : CouplingGraph} {last : Nat} {tokens rest : List Token} {r : Route}
    (h : readSteps last g tokens = .ok (r, rest)) : ∀ s ∈ r, s.IsNative g := by
  fun_induction readSteps last g tokens generalizing r rest with
  | case1 => cases h
  | case2 t tokens opens =>
    cases h
    simp
  | case3 t tokens _ unknown => cases h
  | case4 t tokens _ kind _ ih =>
    obtain ⟨operands, hq, h⟩ := bind_eq_ok_iff.1 h
    obtain ⟨⟨⟩, he, h⟩ := bind_eq_ok_iff.1 h
    obtain ⟨⟨more, rest'⟩, hmore, h⟩ := bind_eq_ok_iff.1 h
    cases h
    exact List.forall_mem_cons.2 ⟨isNative_of_read hq he, ih hmore⟩

theorem lt_of_takeNumeral {last line n : Nat} {role : Numeral} {tokens rest : List Token}
    (h : takeNumeral last role tokens = .ok (line, n, rest)) : n < wordBound := by
  obtain ⟨⟨t, rest'⟩, -, h⟩ := bind_eq_ok_iff.1 h
  obtain ⟨m, hm, h⟩ := bind_eq_ok_iff.1 h
  cases h
  rw [Token.numeral] at hm
  split at hm
  · rename_i hnumeral
    cases hm
    exact lt_of_numeral? hnumeral
  · cases hm

/-- A route that the reader accepts serves its pair, and its cost is a word. -/
theorem readRoute_eq_ok {g : CouplingGraph} {last v w expected : Nat} {tokens rest : List Token}
    {r : Route} (h : readRoute last g v w expected tokens = .ok (r, rest)) :
    r.Serves g v w ∧ r.cost < wordBound := by
  obtain ⟨⟨t, afterMarker⟩, -, h⟩ := bind_eq_ok_iff.1 h
  obtain ⟨-, h⟩ := require_bind_eq_ok_iff.1 h
  obtain ⟨afterArrow, -, h⟩ := bind_eq_ok_iff.1 h
  obtain ⟨⟨route, afterSteps⟩, hsteps, h⟩ := bind_eq_ok_iff.1 h
  obtain ⟨afterEquals, -, h⟩ := bind_eq_ok_iff.1 h
  obtain ⟨⟨line, cost, rest'⟩, hcost, h⟩ := bind_eq_ok_iff.1 h
  obtain ⟨-, h⟩ := require_bind_eq_ok_iff.1 h
  obtain ⟨same, h⟩ := require_bind_eq_ok_iff.1 h
  obtain ⟨hrealizes, h⟩ := require_bind_eq_ok_iff.1 h
  cases h
  exact ⟨⟨isNative_of_readSteps hsteps, hrealizes⟩, same ▸ lt_of_takeNumeral hcost⟩

theorem readRoutes_eq_ok {g : CouplingGraph} {last : Nat} {pairs : List ((Nat × Nat) × Nat)}
    {tokens rest : List Token} {rs : List Route}
    (h : readRoutes last g pairs tokens = .ok (rs, rest)) :
    List.Forall₂ (IsEntry g) (pairs.map Prod.fst) rs ∧ ∀ r ∈ rs, r.cost < wordBound := by
  induction pairs generalizing tokens rs with
  | nil =>
    simp only [readRoutes] at h
    cases h
    exact ⟨.nil, by simp⟩
  | cons pair pairs ih =>
    obtain ⟨⟨v, w⟩, expected⟩ := pair
    simp only [readRoutes] at h
    split at h
    · rename_i hvw
      obtain ⟨⟨more, rest'⟩, hmore, h⟩ := bind_eq_ok_iff.1 h
      cases h
      obtain ⟨entries, costs⟩ := ih hmore
      have free : Route.cost [] < wordBound := by decide
      exact ⟨.cons (by simp [IsEntry, hvw]) entries, List.forall_mem_cons.2 ⟨free, costs⟩⟩
    · rename_i hvw
      obtain ⟨⟨route, afterRoute⟩, hroute, h⟩ := bind_eq_ok_iff.1 h
      obtain ⟨⟨more, rest'⟩, hmore, h⟩ := bind_eq_ok_iff.1 h
      cases h
      obtain ⟨entries, costs⟩ := ih hmore
      obtain ⟨serves, cost⟩ := readRoute_eq_ok hroute
      exact ⟨.cons (by simpa [IsEntry, hvw] using serves) entries,
        List.forall_mem_cons.2 ⟨cost, costs⟩⟩

namespace Device

/-- A consistent device that a text can hold: it is not too large, and its costs are words. -/
structure IsSavable (d : Device) : Prop where
  consistent : d.IsConsistent
  size_le : d.size ≤ sizeLimit
  cost_lt : ∀ c ∈ d.table.costs, c < wordBound

theorem isSavable_of_parse {text : String} {d : Device} (h : parse text = .ok d) :
    d.IsSavable := by
  obtain ⟨⟨size, afterSize⟩, hsize, h⟩ := bind_eq_ok_iff.1 h
  obtain ⟨⟨marks, afterMarks⟩, hmarks, h⟩ := bind_eq_ok_iff.1 h
  obtain ⟨⟨costs, afterCosts⟩, hcosts, h⟩ := bind_eq_ok_iff.1 h
  obtain ⟨⟨rs, rest⟩, hrs, h⟩ := bind_eq_ok_iff.1 h
  obtain ⟨⟨⟩, -, h⟩ := bind_eq_ok_iff.1 h
  cases h
  obtain ⟨entries, bounds⟩ := readRoutes_eq_ok hrs
  rw [List.map_fst_zip (by simp [(readMatrix_square hcosts).1])] at entries
  refine ⟨isConsistent_ofRoutes (isValid_of_readMatrix hmarks) entries, readSize_eq_ok hsize, ?_⟩
  intro c hc
  obtain ⟨r, hr, rfl⟩ : ∃ r ∈ rs, Route.cost r = c := by simpa using hc
  exact bounds r hr

/-- A device that was read from a text is consistent and within the size limit. -/
theorem isConsistent_of_parse {text : String} {d : Device} (h : parse text = .ok d) :
    d.IsConsistent ∧ d.size ≤ sizeLimit :=
  ⟨(isSavable_of_parse h).consistent, (isSavable_of_parse h).size_le⟩

theorem load_toUTF8 (text : String) : load text.toUTF8 = (parse text).mapError .format := by
  rw [load, decodeText_toUTF8]
  rfl

theorem parse_of_load {bytes : ByteArray} {d : Device} (h : load bytes = .ok d) :
    ∃ text, decodeText bytes = .ok text ∧ parse text = .ok d := by
  obtain ⟨text, htext, h⟩ := bind_eq_ok_iff.1 h
  exact ⟨text, htext, mapError_eq_ok_iff.1 h⟩

theorem isSavable_of_load {bytes : ByteArray} {d : Device} (h : load bytes = .ok d) :
    d.IsSavable := by
  obtain ⟨text, -, htext⟩ := parse_of_load h
  exact isSavable_of_parse htext

theorem isConsistent_of_load {bytes : ByteArray} {d : Device} (h : load bytes = .ok d) :
    d.IsConsistent ∧ d.size ≤ sizeLimit := by
  obtain ⟨text, -, htext⟩ := parse_of_load h
  exact isConsistent_of_parse htext

/-- The devices that are given, read from bytes, or reloaded any number of times with any bytes. -/
inductive IsObtainedFrom (given : Device → Prop) : Device → Prop where
  | given {d : Device} (h : given d) : IsObtainedFrom given d
  | loaded {bytes : ByteArray} {d : Device} (h : load bytes = .ok d) : IsObtainedFrom given d
  | reloaded {d : Device} (bytes : ByteArray) (h : IsObtainedFrom given d) :
      IsObtainedFrom given (d.reload bytes)

/-- The devices that are built from any graph, whether arithmetic is checked or not. -/
def IsBuilt (d : Device) : Prop := ∃ g, ofGraph g = .ok d ∨ ofGraphWrapped g = .ok d

/-- The devices that are built from valid graphs with a number of pairs that is in range. -/
def IsBuiltInRange (d : Device) : Prop :=
  ∃ g : CouplingGraph, g.IsValid ∧ g.size * g.size < wordBound ∧
    (ofGraph g = .ok d ∨ ofGraphWrapped g = .ok d)

/-- The devices that are built from valid graphs with a number of pairs that is in range, read from
bytes, or reloaded any number of times with any bytes. -/
def IsObtained : Device → Prop := IsObtainedFrom IsBuiltInRange

theorem isObtained_of_ofGraph {g : CouplingGraph} {d : Device} (valid : g.IsValid)
    (h : ofGraph g = .ok d) : d.IsObtained :=
  .given ⟨g, valid, range_of_ofGraph h, .inl h⟩

theorem IsConsistent.reload {d : Device} (h : d.IsConsistent) (bytes : ByteArray) :
    (d.reload bytes).IsConsistent := by
  rw [Device.reload]
  split
  · rename_i loaded
    exact (isConsistent_of_load loaded).1
  · exact h

theorem IsBuiltInRange.isConsistent {d : Device} (h : d.IsBuiltInRange) : d.IsConsistent := by
  obtain ⟨g, valid, range, built⟩ := h
  rw [ofGraphWrapped_eq_ofGraph range, or_self] at built
  exact isConsistent_of_ofGraph valid built

theorem IsObtained.isConsistent {d : Device} (h : d.IsObtained) : d.IsConsistent := by
  induction h with
  | given h => exact h.isConsistent
  | loaded h => exact (isConsistent_of_load h).1
  | reloaded bytes _ ih => exact ih.reload bytes

theorem isObtained_twoQubits : twoQubits.IsObtained :=
  isObtained_of_ofGraph (CouplingGraph.isValid_chain 2) ofGraph_chain_two

end Device

end CnotRouting
