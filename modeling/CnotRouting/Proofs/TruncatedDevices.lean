import CnotRouting.Proofs.CutRoutes
import CnotRouting.Proofs.SavedDevices

/-!
# Truncated device texts

No device is read from a text that was cut, unless only the last line feed is missing. A matrix that
is cut lacks words, for its last entry is a single character. A cut number of qubits asks for rows
that are not there. What is left of the routes does not reach the cost of the route at the cut.
-/

namespace CnotRouting

/-! ### The size and the matrices -/

/-- A reader of a matrix takes a word for every entry. -/
theorem length_le_of_readMatrix {α : Type} {last size : Nat} {kind : MatrixRow}
    {readEntry : (line v w : Nat) → String → Except FormatError α} {qubits : List Nat}
    {rows rest : List TextRow} {entries : List α}
    (h : readMatrix last kind size readEntry qubits rows = .ok (entries, rest)) :
    entries.length ≤ (rows.map TextRow.words).flatten.length := by
  induction qubits generalizing rows entries with
  | nil =>
    cases h
    simp
  | cons v qubits ih =>
    cases rows with
    | nil => cases h
    | cons row rows =>
      obtain ⟨-, h⟩ := require_bind_eq_ok_iff.1 h
      obtain ⟨first, hfirst, h⟩ := bind_eq_ok_iff.1 h
      obtain ⟨⟨more, rest'⟩, hmore, h⟩ := bind_eq_ok_iff.1 h
      cases h
      have count : row.words.length = first.length := by
        simpa using (mapM_eq_ok_iff.1 hfirst).length_eq
      have later := ih hmore
      rw [List.map_cons, List.flatten_cons, List.length_append, List.length_append]
      omega

/-- A matrix that is cut lacks an entry, unless the cut is inside its last entry. -/
theorem refuses_matrix {α : Type} {last size : Nat} {kind : MatrixRow}
    {readEntry : (line v w : Nat) → String → Except FormatError α} {write : α → String}
    {entries : List α} (complete : entries.length = size * size)
    (single : ∀ a, entries.getLast? = some a → (write a).toList.length = 1) :
    Refuses IsLinePart TextRow.words (readMatrix last kind size readEntry (List.range size))
      (matrixLines size write entries) := by
  rintro rows ⟨read, rest⟩ cut h
  have written : (matrixLines size write entries).flatten = entries.map write := by
    rw [matrixLines, ← List.map_flatten, flatten_inRows]
  have nonempty : ∀ line ∈ matrixLines size write entries, line ≠ [] := by
    intro line hline
    obtain ⟨row, hrow, rfl⟩ := List.mem_map.1 hline
    simpa using ne_nil_of_mem_inRows hrow
  have cut := cut.flatten nonempty
  rw [written] at cut
  have enough : (entries.map write).length ≤ (rows.map TextRow.words).flatten.length := by
    rw [List.length_map, complete, ← (readMatrix_square h).1]
    exact length_le_of_readMatrix h
  obtain ⟨init, word, part, hwords, hpart⟩ := cut.exists_of_length_le enough
  have ends : (entries.map write).getLast? = some word := by simp [hwords]
  rw [List.getLast?_map, Option.map_eq_some_iff] at ends
  obtain ⟨a, ha, rfl⟩ := ends
  exact not_isWordPart_of_length (single a ha) part hpart

/-- A cut number of qubits stands alone in the text, and asks for rows. -/
theorem isCut_of_readSize {n m : Nat} {rows rest : List TextRow} {more : List (List String)}
    (hn : n ≤ sizeLimit) (cut : IsCut IsLinePart ([n.repr] :: more) (rows.map TextRow.words))
    (h : readSize rows = .ok (m, rest)) :
    (m = n ∧ IsCut IsLinePart more (rest.map TextRow.words)) ∨ (0 < m ∧ rest = []) := by
  have reads : ∀ k ≤ sizeLimit, ∀ later, rows.map TextRow.words = [k.repr] :: later →
      m = k ∧ rest.map TextRow.words = later := by
    intro k hk later written
    obtain ⟨rest', hread, hrest⟩ := reads_size hk rows later written
    rw [h] at hread
    cases hread
    exact ⟨rfl, hrest⟩
  generalize hrows : rows.map TextRow.words = lines at cut
  cases cut with
  | before =>
    obtain rfl := List.map_eq_nil_iff.1 hrows
    cases h
  | @inside _ line _ part =>
    cases part.isCut with
    | before => exact absurd rfl part.nonempty
    | inside hpart =>
      obtain ⟨k, rfl, positive, less⟩ := hpart.exists_lt
      obtain ⟨rfl, hrest⟩ := reads k (by omega) [] hrows
      exact .inr ⟨positive, List.map_eq_nil_iff.1 hrest⟩
    | after none => cases none
  | after cut =>
    obtain ⟨same, hrest⟩ := reads n hn _ hrows
    exact .inl ⟨same, hrest ▸ cut⟩

namespace Device.IsSavable

variable {d : Device}

theorem refuses_marks (h : d.IsSavable) (last : Nat) :
    Refuses IsLinePart TextRow.words (readMatrix last .graph d.size readMark (List.range d.size))
      (matrixLines d.graph.size edgeMark d.graph.adjacency.toList) := by
  apply refuses_matrix
  · exact h.consistent.valid.complete
  · intro edge _
    cases edge <;> rfl

/-- The last of the costs is on the diagonal. -/
theorem refuses_costs (h : d.IsSavable) (last : Nat) :
    Refuses IsLinePart TextRow.words (readMatrix last .cost d.size readCost (List.range d.size))
      (matrixLines d.table.size Nat.repr d.table.costs.toList) := by
  rw [h.consistent.size_eq]
  apply refuses_matrix h.length_costs
  intro c hc
  rw [List.getLast?_eq_getElem?, h.length_costs] at hc
  obtain rfl : c = 0 := by
    cases hsize : d.size with
    | zero => simp [List.eq_nil_of_length_eq_zero (h.length_costs.trans (by simp [hsize]))] at hc
    | succ n =>
      have corner : d.size * d.size - 1 = n * d.size + n := by
        rw [hsize, Nat.succ_mul]
        omega
      exact h.diagonal_cost (by omega) (corner ▸ hc)
  rfl

theorem refuses_table (h : d.IsSavable) (last : Nat) :
    Refuses IsWordPart Token.word
      (readRoutes last d.graph ((pairsBelow d.size).zip d.table.costs.toList))
      (d.table.entries.flatMap routeLines).flatten := by
  rw [h.entries_eq, h.zip_costs]
  exact refuses_routes h.graph_size_le last h.zip_isEntry h.zip_cost_lt

/-- No device is read from a text whose lines are a cut of the lines of a device. -/
theorem parse_ne_ok (h : d.IsSavable) {text : String}
    (cut : IsCut IsLinePart d.lines (nonblankLines text.toList)) (d' : Device) :
    parse text ≠ .ok d' := by
  intro hparse
  rw [← nonblankRows_words] at cut
  obtain ⟨⟨size, afterSize⟩, hsize, hparse⟩ := bind_eq_ok_iff.1 hparse
  obtain ⟨⟨marks, afterMarks⟩, hmarks, hparse⟩ := bind_eq_ok_iff.1 hparse
  rcases isCut_of_readSize h.size_le cut hsize with ⟨rfl, cut⟩ | ⟨positive, rfl⟩
  · obtain ⟨rfl, cut⟩ := (h.refuses_marks _).isCut_rest (h.reads_marks _) cut hmarks
    obtain ⟨⟨costs, afterCosts⟩, hcosts, hparse⟩ := bind_eq_ok_iff.1 hparse
    obtain ⟨rfl, cut⟩ := (h.refuses_costs _).isCut_rest (h.reads_costs _) cut hcosts
    obtain ⟨⟨routes, rest⟩, hroutes, -⟩ := bind_eq_ok_iff.1 hparse
    have nonempty : ∀ line ∈ d.table.entries.flatMap routeLines, line ≠ [] := by
      intro line hline
      obtain ⟨entry, -, hline⟩ := List.mem_flatMap.1 hline
      exact (isLine_of_mem_routeLines hline).nonempty
    have cut := cut.flatten nonempty
    rw [← rowTokens_words] at cut
    exact h.refuses_table _ _ _ cut hroutes
  -- the number of qubits was cut, and no row follows it
  · have none := length_le_of_readMatrix hmarks
    rw [(readMatrix_square hmarks).1] at none
    exact absurd none (Nat.not_le.2 (Nat.mul_pos positive positive))

theorem load_eq_error (h : d.IsSavable) {part : String} (start : part.toList <+: d.text.toList)
    (ne : part ≠ d.text) (body : part ++ "\n" ≠ d.text) :
    ∃ e, load part.toUTF8 = .error (.format e) := by
  rw [d.text_eq] at start ne body
  have body : part.toList ++ ['\n'] ≠ (linesText d.lines).toList := fun same =>
    body (String.toList_inj.1 (String.toList_append.trans same))
  have cut := isCut_linesText d.isLine_of_mem_lines start (mt String.toList_inj.1 ne) body
  cases hparse : parse part with
  | ok d' => exact absurd hparse (h.parse_ne_ok cut d')
  | error e =>
    refine ⟨e, ?_⟩
    rw [load_toUTF8, hparse]
    rfl

theorem exists_body (h : d.IsSavable) :
    ∃ body, d.text = body ++ "\n" ∧ load body.toUTF8 = .ok d := by
  have lines : d.lines ≠ [] := by simp [Device.lines]
  obtain ⟨body, text, hbody⟩ := exists_without_newline d.isLine_of_mem_lines lines
  exact ⟨body, d.text_eq.trans text, h.load_of_lines hbody⟩

end Device.IsSavable

/-- The text that a consistent device is saved to breaks off nowhere unnoticed. Without its last line
feed it still loads as that device, and every shorter part of it is refused for its format. Every
device that is built from a valid graph within the size limit is of this kind. -/
theorem truncated_text_refused :
    (∀ d : Device, d.IsSavable → ∃ text, d.save = .ok text ∧
      (∃ body, text = body ++ "\n" ∧ Device.load body.toUTF8 = .ok d) ∧
      ∀ part : String, part.toList <+: text.toList → part ≠ text → part ++ "\n" ≠ text →
        ∃ e, Device.load part.toUTF8 = .error (.format e)) ∧
    ∀ (g : CouplingGraph) (d : Device), g.IsValid → g.size ≤ sizeLimit →
      Device.ofGraph g = .ok d → d.IsSavable := by
  constructor
  · intro d h
    exact ⟨d.text, h.save_eq, h.exists_body, fun _ => h.load_eq_error⟩
  · intro g d valid size_le h
    exact Device.isSavable_of_ofGraph valid size_le h

/-- On a fork of three qubits, the last cost may lose its last digit and still be a number. -/
theorem truncated_text_refused_fork :
    ∃ d start, Device.ofGraph (.ofPairs 3 [(0, 1), (0, 2)]) = .ok d ∧
      d.save = .ok (start ++ "cost = 10\n") ∧
      ∃ e, Device.load (start ++ "cost = 1").toUTF8 = .error (.format e) := by
  let move (v : Nat) : Step := ⟨.move .control .against, v, 0, none⟩
  let d : Device := ⟨.ofPairs 3 [(0, 1), (0, 2)], .ofRoutes 3 [
    [], [⟨.native, 0, 1, none⟩], [⟨.native, 0, 2, none⟩],
    [⟨.flip, 1, 0, none⟩], [], [move 1, ⟨.native, 0, 2, none⟩, (move 1).inverse],
    [⟨.flip, 2, 0, none⟩], [move 2, ⟨.native, 0, 1, none⟩, (move 2).inverse], []]⟩
  have built : Device.ofGraph (.ofPairs 3 [(0, 1), (0, 2)]) = .ok d := by
    apply ok_of_toOption
    decide +kernel
  have last : d.lines.getLast? = some ["cost", "=", "10"] := by decide +kernel
  obtain ⟨lines, hlines⟩ := List.getLast?_eq_some_iff.1 last
  have ends : d.text = linesText lines ++ "cost = 10\n" := by
    rw [d.text_eq, hlines, linesText_append]
    rfl
  have valid : (CouplingGraph.ofPairs 3 [(0, 1), (0, 2)]).IsValid :=
    CouplingGraph.isValid_ofPairs (by decide)
  have savable := truncated_text_refused.2 _ d valid (by decide) built
  obtain ⟨text, hsave, -, refused⟩ := truncated_text_refused.1 d savable
  obtain rfl : d.text = text := by simpa [savable.save_eq] using hsave
  refine ⟨d, linesText lines, built, ends ▸ hsave, refused _ ?_ ?_ ?_⟩
  · rw [ends, String.toList_append, String.toList_append, List.prefix_append_right_inj]
    exact ⟨['0', '\n'], rfl⟩
  · rw [ends]
    simp
  · rw [ends]
    simp [String.append_assoc]

end CnotRouting
