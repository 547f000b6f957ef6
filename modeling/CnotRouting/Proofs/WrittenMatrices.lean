import CnotRouting.Proofs.WrittenRoutes

/-!
# Matrices read as they were written

A square matrix is written row by row from the list of its entries. The reader joins the rows again,
if it reads every entry on its own as it was written.
-/

namespace CnotRouting

variable {α : Type}

theorem flatten_inRows (n : Nat) (l : List α) : (inRows n l).flatten = l := by
  fun_induction inRows n l with
  | case1 => rfl
  | case2 a rest ih => simp [ih]

theorem length_inRows {n k : Nat} (hn : 0 < n) {l : List α} (h : l.length = k * n) :
    (inRows n l).length = k ∧ ∀ row ∈ inRows n l, row.length = n := by
  induction k generalizing l with
  | zero =>
    obtain rfl : l = [] := by simpa using h
    simp [inRows]
  | succ k ih =>
    rw [Nat.succ_mul] at h
    cases l with
    | nil =>
      simp only [List.length_nil] at h
      omega
    | cons a rest =>
      rw [List.length_cons] at h
      have later : (rest.drop (n - 1)).length = k * n := by
        rw [List.length_drop]
        omega
      obtain ⟨rows, lengths⟩ := ih later
      rw [inRows]
      refine ⟨by rw [List.length_cons, rows], List.forall_mem_cons.2 ⟨?_, lengths⟩⟩
      rw [List.length_cons, List.length_take]
      omega

theorem length_inRows_square {n : Nat} {l : List α} (h : l.length = n * n) :
    (inRows n l).length = n ∧ ∀ row ∈ inRows n l, row.length = n := by
  cases n with
  | zero =>
    obtain rfl : l = [] := by simpa using h
    simp [inRows]
  | succ n => exact length_inRows (Nat.succ_pos n) h

/-- Place `w` of row `v` is position `v * n + w` of the list. -/
theorem forall₂_inRows {n : Nat} {l : List α} (h : l.length = n * n) :
    List.Forall₂ (fun v row => v < n ∧ row.length = n ∧ ∀ w < n, row[w]? = l[v * n + w]?)
      (List.range n) (inRows n l) := by
  obtain ⟨count, lengths⟩ := length_inRows_square h
  refine List.forall₂_iff_get.2 ⟨by rw [List.length_range, count], ?_⟩
  intro v hv hrow
  have hv : v < n := by simpa using hv
  have row : (inRows n l)[v]? = some (inRows n l)[v] := List.getElem?_eq_getElem hrow
  have place : ∀ w < n, (inRows n l)[v][w]? = l[v * n + w]? := by
    intro w hw
    have joined := getElem?_flatMap_rows (f := id) lengths (v := v) hw
    rw [List.flatMap_id, flatten_inRows, row] at joined
    exact joined.symm
  simpa using ⟨hv, lengths _ (List.getElem_mem hrow), place⟩

variable {readEntry : (line v w : Nat) → String → Except FormatError α} {write : α → String}

theorem mapM_written {line v : Nat} {row : List α}
    (h : ∀ w a, row[w]? = some a → readEntry line v w (write a) = .ok a) :
    ((row.map write).zipIdx.mapM fun (word, w) => readEntry line v w word) = .ok row := by
  have reads : (row.zipIdx.mapM fun p => readEntry line v p.2 (write p.1)) =
      .ok (row.zipIdx.map Prod.fst) :=
    mapM_eq_ok_map fun p hp => h p.2 p.1 (List.mem_zipIdx_iff_getElem?.1 hp)
  rw [List.zipIdx_map_fst] at reads
  rw [List.zipIdx_map, List.mapM_map]
  exact reads

theorem reads_rows {last size : Nat} {kind : MatrixRow} {qubits : List Nat} {rows : List (List α)}
    (h : List.Forall₂ (fun v row => row.length = size ∧ ∀ w a, row[w]? = some a →
      ∀ line, readEntry line v w (write a) = .ok a) qubits rows) :
    Reads TextRow.words (readMatrix last kind size readEntry qubits)
      (rows.map fun row => row.map write) rows.flatten := by
  induction h with
  | nil => exact fun items more written => ⟨items, rfl, written⟩
  | @cons v row qubits rows hrow _ ih =>
    obtain ⟨length, entries⟩ := hrow
    intro items more written
    obtain ⟨first, later, rfl, hfirst, hlater⟩ := List.map_eq_cons_iff.1 written
    obtain ⟨rest, hmore, hrest⟩ := ih _ _ hlater
    have each := mapM_written fun w a ha => entries w a ha first.line
    refine ⟨rest, ?_, hrest⟩
    rw [readMatrix, hfirst]
    refine require_bind_eq_ok_iff.2 ⟨by rw [List.length_map, length], ?_⟩
    exact bind_eq_ok_iff.2 ⟨_, each, bind_eq_ok_iff.2 ⟨_, hmore, rfl⟩⟩

theorem reads_matrix {last size : Nat} {kind : MatrixRow} {entries : List α}
    (complete : entries.length = size * size)
    (h : ∀ v < size, ∀ w < size, ∀ a, entries[v * size + w]? = some a →
      ∀ line, readEntry line v w (write a) = .ok a) :
    Reads TextRow.words (readMatrix last kind size readEntry (List.range size))
      (matrixLines size write entries) entries := by
  have each : List.Forall₂ (fun v row => row.length = size ∧ ∀ w a, row[w]? = some a →
      ∀ line, readEntry line v w (write a) = .ok a) (List.range size) (inRows size entries) := by
    refine (forall₂_inRows complete).imp ?_
    rintro v row ⟨hv, length, place⟩
    refine ⟨length, fun w a ha line => ?_⟩
    have hw : w < size := length ▸ (List.getElem?_eq_some_iff.1 ha).1
    exact h v hv w hw a (place w hw ▸ ha) line
  have rows : Reads TextRow.words (readMatrix last kind size readEntry (List.range size))
      (matrixLines size write entries) (inRows size entries).flatten := reads_rows each
  rwa [flatten_inRows] at rows

/-! ### The size and the entries -/

theorem reads_size {n : Nat} (h : n ≤ sizeLimit) :
    Reads TextRow.words readSize [[n.repr]] n := by
  intro rows more written
  obtain ⟨⟨line, words⟩, rest, rfl, hwords, hrest⟩ := List.map_eq_cons_iff.1 written
  obtain rfl : words = [n.repr] := hwords
  have bound : n < countBound := Nat.lt_of_le_of_lt h (by decide)
  refine ⟨rest, ?_, hrest⟩
  rw [readSize, numeral?_repr bound]
  exact require_bind_eq_ok_iff.2 ⟨h, rfl⟩

theorem readMark_edgeMark {g : CouplingGraph} (valid : g.IsValid) {v w : Nat} (hv : v < g.size)
    (hw : w < g.size) {edge : Bool} (h : g.adjacency.toList[v * g.size + w]? = some edge)
    (line : Nat) : readMark line v w (edgeMark edge) = .ok edge := by
  cases edge with
  | false => rfl
  | true =>
    have marked : g.hasEdge v w = true := by
      rw [Array.getElem?_toList] at h
      simp [CouplingGraph.hasEdge, hv, hw, Array.getD_eq_getD_getElem?, h]
    rw [readMark, edgeMark, if_pos rfl, if_pos rfl, if_neg (valid.ne marked)]

theorem readCost_repr {v w c : Nat} (bound : c < wordBound) (diagonal : v = w → c = 0)
    (line : Nat) : readCost line v w c.repr = .ok c :=
  bind_eq_ok_iff.2 ⟨c, numeral_written rfl bound _, require_bind_eq_ok_iff.2 ⟨diagonal, rfl⟩⟩

end CnotRouting
