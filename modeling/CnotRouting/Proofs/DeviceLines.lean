import CnotRouting.DeviceTexts
import CnotRouting.Proofs.WrittenLines

/-!
# The lines of a device text

A device is written line by line: the number of its qubits, the rows of its graph and of its costs,
and for every route a marker, its steps and its cost. All that stands in these lines are words.
-/

namespace CnotRouting

def Step.operands (s : Step) : List Nat := s.a :: s.b :: s.c.toList

def Step.words (s : Step) : List String := s.kind.token :: s.operands.map Nat.repr

def Route.lines (r : Route) : List (List String) :=
  r.map Step.words ++ [["cost", "=", (Route.cost r).repr]]

/-- The lines of a route after its marker. -/
def routeLines (entry : Nat × Nat × Route) : List (List String) :=
  [routeMarker entry.1 entry.2.1, "=>"] :: entry.2.2.lines

/-- The mark of an entry in the rows of a graph. -/
def edgeMark (edge : Bool) : String := if edge then "X" else "-"

/-- The rows of a matrix as lines. -/
def matrixLines {α : Type} (size : Nat) (write : α → String) (entries : List α) :
    List (List String) :=
  (inRows size entries).map fun row => row.map write

def Device.lines (d : Device) : List (List String) :=
  [[d.size.repr]] ++ (matrixLines d.graph.size edgeMark d.graph.adjacency.toList ++
    (matrixLines d.table.size Nat.repr d.table.costs.toList ++ d.table.entries.flatMap routeLines))

theorem Step.text_eq (s : Step) : s.text = " ".intercalate s.words := by
  have plain : ∀ text : String, toString text = text := fun _ => rfl
  obtain ⟨kind, a, b, c⟩ := s
  cases c <;> simp [Step.text, Step.words, Step.operands, plain, String.append_assoc]

theorem Route.text_eq (r : Route) : r.text = linesText r.lines := by
  have steps : r.map (fun s => s.text ++ "\n") = (r.map Step.words).map lineText := by
    simp [Step.text_eq, lineText, Function.comp_def]
  have cost : s!"cost = {Route.cost r}\n" = lineText ["cost", "=", (Route.cost r).repr] := by
    simp [lineText, ← String.append_assoc]
    rfl
  rw [Route.text, Route.lines, linesText_append, steps, cost]
  simp [linesText]

theorem routeText_eq (entry : Nat × Nat × Route) : routeText entry = linesText (routeLines entry) := by
  rw [routeText, routeLines, linesText_cons, Route.text_eq]
  simp [lineText, String.append_assoc]

theorem Device.text_eq (d : Device) : d.text = linesText d.lines := by
  have size : s!"{d.size}\n" = lineText [d.size.repr] := by
    rw [lineText, String.intercalate_singleton]
    rfl
  have marks : d.graph.text =
      linesText (matrixLines d.graph.size edgeMark d.graph.adjacency.toList) := by
    rw [linesText, matrixLines, List.map_map]
    rfl
  have costs : d.table.text =
      linesText (matrixLines d.table.size Nat.repr d.table.costs.toList) := by
    rw [linesText, matrixLines, List.map_map]
    rfl
  have routes : String.join (d.table.entries.map routeText) =
      linesText (d.table.entries.flatMap routeLines) := by
    rw [linesText_flatMap, (funext routeText_eq : routeText = fun e => linesText (routeLines e))]
  rw [Device.text, Device.lines, linesText_append, linesText_append, linesText_append, size, marks,
    costs, routes]
  simp [linesText, String.append_assoc]

/-! ### Words -/

theorem isWord_token (k : StepKind) : IsWord k.token := by
  rcases k with ⟨_ | _, _ | _⟩ | ⟨_ | _, _ | _⟩ | _ | _ | _ <;> decide

theorem isWord_edgeMark (edge : Bool) : IsWord (edgeMark edge) := by
  cases edge <;> decide

theorem isWord_routeMarker (v w : Nat) : IsWord (routeMarker v w) := by
  have opening : IsWord "cnot(" := by decide
  have comma : IsWord "," := by decide
  have closing : IsWord ")" := by decide
  exact (((opening.append (isWord_repr v)).append comma).append (isWord_repr w)).append closing

theorem Step.isLine_words (s : Step) : IsLine s.words := by
  refine ⟨by simp [Step.words], List.forall_mem_cons.2 ⟨isWord_token s.kind, ?_⟩⟩
  intro word h
  obtain ⟨q, -, rfl⟩ := List.mem_map.1 h
  exact isWord_repr q

theorem mem_routeLines {entry : Nat × Nat × Route} {line : List String} :
    line ∈ routeLines entry ↔ line = [routeMarker entry.1 entry.2.1, "=>"] ∨
      (∃ s ∈ entry.2.2, s.words = line) ∨ line = ["cost", "=", (Route.cost entry.2.2).repr] := by
  simp [routeLines, Route.lines]

theorem isLine_of_mem_routeLines {entry : Nat × Nat × Route} {line : List String}
    (h : line ∈ routeLines entry) : IsLine line := by
  have arrow : IsWord "=>" := by decide
  have cost : IsWord "cost" := by decide
  have equals : IsWord "=" := by decide
  rcases mem_routeLines.1 h with rfl | ⟨s, -, rfl⟩ | rfl
  · exact ⟨by simp, by simp [isWord_routeMarker, arrow]⟩
  · exact s.isLine_words
  · exact ⟨by simp, by simp [cost, equals, isWord_repr]⟩

theorem ne_nil_of_mem_inRows {α : Type} {n : Nat} {l row : List α} (h : row ∈ inRows n l) :
    row ≠ [] := by
  fun_induction inRows n l with
  | case1 => cases h
  | case2 a rest ih =>
    rcases List.mem_cons.1 h with rfl | h
    · simp
    · exact ih h

theorem isLine_of_mem_matrixLines {α : Type} {size : Nat} {write : α → String} {entries : List α}
    (hwrite : ∀ a, IsWord (write a)) {line : List String}
    (h : line ∈ matrixLines size write entries) : IsLine line := by
  obtain ⟨row, hrow, rfl⟩ := List.mem_map.1 h
  refine ⟨by simpa using ne_nil_of_mem_inRows hrow, ?_⟩
  intro word hword
  obtain ⟨a, -, rfl⟩ := List.mem_map.1 hword
  exact hwrite a

/-- Every line of a device text has words, and nothing else. -/
theorem Device.isLine_of_mem_lines (d : Device) : ∀ line ∈ d.lines, IsLine line := by
  intro line h
  simp only [Device.lines, List.mem_append, List.mem_singleton, List.mem_flatMap] at h
  rcases h with rfl | marks | costs | ⟨entry, -, route⟩
  · exact ⟨by simp, by simp [isWord_repr]⟩
  · exact isLine_of_mem_matrixLines isWord_edgeMark marks
  · exact isLine_of_mem_matrixLines isWord_repr costs
  · exact isLine_of_mem_routeLines route

end CnotRouting
