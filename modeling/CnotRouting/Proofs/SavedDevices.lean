import CnotRouting.Proofs.BoundedCosts
import CnotRouting.Proofs.WrittenMatrices

/-!
# Saved devices

A consistent device that is saved and loaded is the same device again, and is saved to the same text.
Its rows and routes are read as they were written, and every check of the reader is passed. Every
device that is built from a valid graph can be saved and loaded in this way.
-/

namespace CnotRouting

/-- The entries of a complete table are its routes with their pairs. -/
theorem RouteTable.entries_eq {t : RouteTable} (complete : t.routes.size = t.size * t.size) :
    t.entries = ((pairsBelow t.size).zip t.routes.toList).filterMap writtenRoute? := by
  have pairs : (pairsBelow t.size).zip t.routes.toList =
      t.routes.toList.zipIdx.map fun p => ((p.2 / t.size, p.2 % t.size), p.1) := by
    apply List.ext_getElem
    · simp [complete]
    · intro i hi _
      have hi : i < t.size * t.size := by simpa [complete] using hi
      have pair := (List.getElem?_eq_some_iff.1 (getElem?_pairsBelow_eq hi)).2
      simp [pair]
  rw [pairs, List.filterMap_map]
  rfl

namespace Device

/-- A consistent device is made up of its adjacency matrix and its routes. -/
theorem IsConsistent.rebuilt {d : Device} (h : d.IsConsistent) :
    ⟨⟨d.size, d.graph.adjacency.toList.toArray⟩, .ofRoutes d.size d.table.routes.toList⟩ = d := by
  obtain ⟨⟨n, adjacency⟩, ⟨m, costs, routes⟩⟩ := d
  obtain rfl : m = n := h.size_eq
  obtain rfl : costs = routes.map Route.cost := h.costs_eq
  have costs : (routes.toList.map Route.cost).toArray = routes.map Route.cost := by
    rw [← Array.toList_map, Array.toArray_toList]
  rw [RouteTable.ofRoutes, costs, Array.toArray_toList, Array.toArray_toList]
  rfl

namespace IsSavable

variable {d : Device}

theorem save_eq (h : d.IsSavable) : d.save = .ok d.text := by
  have size : d.table.size = d.size := h.consistent.size_eq
  have filled : ¬(d.table.size = 0 ∧ d.table.routes.size ≠ 0) := by
    rintro ⟨zero, routes⟩
    rw [h.consistent.routes_size, ← size, zero] at routes
    exact routes rfl
  have routes : d.routes = .ok d.table.entries := if_neg filled
  exact bind_eq_ok_iff.2 ⟨_, routes, rfl⟩

theorem reads_marks (h : d.IsSavable) (last : Nat) :
    Reads TextRow.words (readMatrix last .graph d.size readMark (List.range d.size))
      (matrixLines d.graph.size edgeMark d.graph.adjacency.toList) d.graph.adjacency.toList := by
  apply reads_matrix
  · exact h.consistent.valid.complete
  · intro v hv w hw edge hedge line
    exact readMark_edgeMark h.consistent.valid hv hw hedge line

theorem length_costs (h : d.IsSavable) : d.table.costs.toList.length = d.size * d.size := by
  simp [h.consistent.costs_eq, h.consistent.routes_size]

theorem diagonal_cost (h : d.IsSavable) {v c : Nat} (hv : v < d.size)
    (hc : d.table.costs.toList[v * d.size + v]? = some c) : c = 0 := by
  obtain ⟨r, hr, entry⟩ := h.consistent.entry v hv v hv
  obtain rfl : r = [] := by simpa [IsEntry] using entry
  rw [Array.getElem?_toList, h.consistent.costs_eq, Array.getElem?_map, hr] at hc
  exact (Option.some.inj hc).symm

theorem reads_costs (h : d.IsSavable) (last : Nat) :
    Reads TextRow.words (readMatrix last .cost d.size readCost (List.range d.size))
      (matrixLines d.table.size Nat.repr d.table.costs.toList) d.table.costs.toList := by
  rw [h.consistent.size_eq]
  apply reads_matrix h.length_costs
  intro v hv w hw c hc line
  refine readCost_repr (h.cost_lt c (Array.mem_toList_iff.1 (List.mem_of_getElem? hc))) ?_ line
  rintro rfl
  exact h.diagonal_cost hv hc

theorem zip_costs (h : d.IsSavable) : (pairsBelow d.size).zip d.table.costs.toList =
    ((pairsBelow d.size).zip d.table.routes.toList).map fun e => (e.1, e.2.cost) := by
  rw [h.consistent.costs_eq, Array.toList_map, List.zip_map_right]
  rfl

theorem zip_isEntry (h : d.IsSavable) :
    ∀ e ∈ (pairsBelow d.size).zip d.table.routes.toList, IsEntry d.graph e.1 e.2 :=
  fun _ he => List.forall₂_zip h.consistent.forall₂_isEntry he

theorem zip_cost_lt (h : d.IsSavable) :
    ∀ e ∈ (pairsBelow d.size).zip d.table.routes.toList, e.2.cost < wordBound := by
  intro e he
  apply h.cost_lt
  rw [h.consistent.costs_eq]
  exact Array.mem_map_of_mem (Array.mem_toList_iff.1 (List.of_mem_zip he).2)

theorem graph_size_le (h : d.IsSavable) : d.graph.size ≤ wordBound :=
  Nat.le_trans h.size_le (by decide)

theorem entries_eq (h : d.IsSavable) : d.table.entries =
    ((pairsBelow d.size).zip d.table.routes.toList).filterMap writtenRoute? := by
  have size : d.table.size = d.size := h.consistent.size_eq
  rw [RouteTable.entries_eq (by rw [size]; exact h.consistent.routes_size), size]

theorem reads_table (h : d.IsSavable) (last : Nat) :
    Reads Token.word
      (readRoutes last d.graph ((pairsBelow d.size).zip d.table.costs.toList))
      (d.table.entries.flatMap routeLines).flatten d.table.routes.toList := by
  have routes : ((pairsBelow d.size).zip d.table.routes.toList).map Prod.snd =
      d.table.routes.toList := List.map_snd_zip (by simp [h.consistent.routes_size])
  have written := reads_routes h.graph_size_le last h.zip_isEntry h.zip_cost_lt
  rw [h.entries_eq, h.zip_costs]
  rwa [routes] at written

/-- A device is read from every text that has its lines. -/
theorem parse_of_lines (h : d.IsSavable) {text : String}
    (lines : nonblankLines text.toList = d.lines) : parse text = .ok d := by
  have written := nonblankRows_words text
  rw [lines] at written
  -- the size and the matrices are taken row by row, and the routes as a run of words after them
  let last := lastLine ((textRows text).filter (·.words ≠ []))
  obtain ⟨afterSize, hsize, written⟩ := reads_size h.size_le _ _ written
  obtain ⟨afterMarks, hmarks, written⟩ := h.reads_marks last _ _ written
  obtain ⟨afterCosts, hcosts, written⟩ := h.reads_costs last _ _ written
  have tokens : (rowTokens afterCosts).map Token.word =
      (d.table.entries.flatMap routeLines).flatten ++ [] := by
    rw [rowTokens_words, written, List.append_nil]
  obtain ⟨rest, hroutes, hrest⟩ := h.reads_table last _ _ tokens
  obtain rfl : rest = [] := List.map_eq_nil_iff.1 hrest
  refine bind_eq_ok_iff.2 ⟨_, hsize, bind_eq_ok_iff.2 ⟨_, hmarks, bind_eq_ok_iff.2 ⟨_, hcosts, ?_⟩⟩⟩
  exact bind_eq_ok_iff.2 ⟨_, hroutes, bind_eq_ok_iff.2 ⟨_, rfl, congrArg _ h.consistent.rebuilt⟩⟩

theorem load_of_lines (h : d.IsSavable) {text : String}
    (lines : nonblankLines text.toList = d.lines) : load text.toUTF8 = .ok d := by
  rw [load_toUTF8, h.parse_of_lines lines]
  rfl

theorem load_text (h : d.IsSavable) : load d.text.toUTF8 = .ok d := by
  apply h.load_of_lines
  rw [d.text_eq]
  exact nonblankLines_linesText d.isLine_of_mem_lines

end IsSavable

/-- What was loaded can be saved and loaded again. -/
theorem load_save_of_load {bytes : ByteArray} {d : Device} (h : load bytes = .ok d) :
    ∃ text, d.save = .ok text ∧ load text.toUTF8 = .ok d :=
  ⟨d.text, (isSavable_of_load h).save_eq, (isSavable_of_load h).load_text⟩

theorem isSavable_of_ofGraph {g : CouplingGraph} {d : Device} (valid : g.IsValid)
    (size_le : g.size ≤ sizeLimit) (h : ofGraph g = .ok d) : d.IsSavable where
  consistent := isConsistent_of_ofGraph valid h
  size_le := by rwa [size, graph_of_ofGraph h]
  cost_lt := by
    intro c hc
    obtain ⟨rs, rfl, hrs⟩ := ofGraph_eq_ok h
    obtain ⟨r, hr, rfl⟩ : ∃ r ∈ rs, Route.cost r = c := by simpa using hc
    obtain ⟨i, hi⟩ := List.mem_iff_getElem?.1 hr
    obtain ⟨p, -, hp⟩ := forall₂_getElem? hrs.flip hi
    calc Route.cost r ≤ 12 * g.size + 4 := CouplingGraph.cost_le_of_cheapestRoute hp
      _ ≤ 12 * sizeLimit + 4 := by omega
      _ < wordBound := by decide

end Device

/-- A consistent device loads from the text it is saved to as itself, and is saved to the same text
again. Every device that is built from a valid graph within the size limit is of this kind. -/
theorem saved_device_loads :
    (∀ d : Device, d.IsSavable → ∃ text loaded, d.save = .ok text ∧
      Device.load text.toUTF8 = .ok loaded ∧ loaded = d ∧ loaded.save = .ok text) ∧
    ∀ (g : CouplingGraph) (d : Device), g.IsValid → g.size ≤ sizeLimit →
      Device.ofGraph g = .ok d → d.IsSavable := by
  constructor
  · intro d h
    exact ⟨d.text, d, h.save_eq, h.load_text, rfl, h.save_eq⟩
  · intro g d valid size_le h
    exact Device.isSavable_of_ofGraph valid size_le h

theorem saved_device_loads_chain_three :
    ∃ d text, Device.ofGraph (.chain 3) = .ok d ∧ d.save = .ok text ∧
      Device.load text.toUTF8 = .ok d := by
  have valid := CouplingGraph.isValid_chain 3
  obtain ⟨d, hd, -⟩ :=
    Device.exists_ofGraph valid (CouplingGraph.isConnected_chain 3) (by decide)
  have savable := saved_device_loads.2 (.chain 3) d valid (by decide) hd
  obtain ⟨text, loaded, hsave, hload, rfl, -⟩ := saved_device_loads.1 d savable
  exact ⟨_, text, hd, hsave, hload⟩

end CnotRouting
