import CnotRouting.DecimalNumerals
import CnotRouting.TextTokens

/-!
# Written lines

A text is written line by line, with a space between the words of a line. If no word is empty or
holds a blank, the lines and words that are read back are those that were written.
-/

namespace CnotRouting

/-- A word that can stand in a line. -/
structure IsWord (word : String) : Prop where
  nonempty : word.toList ≠ []
  solid : ∀ c ∈ word.toList, isBlank c = false

instance (word : String) : Decidable (IsWord word) :=
  decidable_of_iff (word.toList.isEmpty = false ∧ word.toList.all (!isBlank ·) = true)
    ⟨fun h => ⟨by simpa using h.1, by simpa using h.2⟩,
      fun h => ⟨by simpa using h.nonempty, by simpa using h.solid⟩⟩

structure IsLine (line : List String) : Prop where
  nonempty : line ≠ []
  isWord : ∀ word ∈ line, IsWord word

def lineText (line : List String) : String := " ".intercalate line ++ "\n"

def linesText (lines : List (List String)) : String := String.join (lines.map lineText)

theorem linesText_cons (line : List String) (lines : List (List String)) :
    linesText (line :: lines) = lineText line ++ linesText lines := by
  simp [linesText]

theorem linesText_append (lines more : List (List String)) :
    linesText (lines ++ more) = linesText lines ++ linesText more := by
  simp [linesText]

theorem linesText_flatMap {α : Type} (f : α → List (List String)) (l : List α) :
    linesText (l.flatMap f) = String.join (l.map fun a => linesText (f a)) := by
  induction l with
  | nil => rfl
  | cons a l ih => rw [List.flatMap_cons, linesText_append, ih, List.map_cons, String.join_cons]

theorem isBlank_eq_false_of_isDigit {c : Char} (h : c.isDigit = true) : isBlank c = false := by
  simp only [Char.isDigit, Bool.and_eq_true, decide_eq_true_eq] at h
  obtain ⟨low, high⟩ := h
  have low : 48 ≤ c.toNat := low
  have high : c.toNat ≤ 57 := high
  simp [isBlank]
  omega

theorem isWord_repr (n : Nat) : IsWord n.repr := by
  rw [Nat.repr]
  constructor
  · simp [Nat.toDigits_ne_nil]
  · intro c hc
    rw [String.toList_ofList] at hc
    exact isBlank_eq_false_of_isDigit (Nat.isDigit_of_mem_toDigits (by decide) (by decide) hc)

theorem IsWord.append {word more : String} (h : IsWord word) (hmore : IsWord more) :
    IsWord (word ++ more) := by
  constructor
  · simp [h.nonempty]
  · intro c hc
    rw [String.toList_append, List.mem_append] at hc
    exact hc.elim (h.solid c) (hmore.solid c)

/-- A run of characters that a blank or the end of the text follows is a word. -/
theorem words_append {w rest : List Char} (nonempty : w ≠ []) (solid : ∀ c ∈ w, isBlank c = false)
    (ends : ∀ c ∈ rest.head?, isBlank c = true) : words (w ++ rest) = w :: words rest := by
  cases w with
  | nil => exact absurd rfl nonempty
  | cons c cs =>
    obtain ⟨hc, hcs⟩ := List.forall_mem_cons.1 solid
    have run : ∀ d ∈ cs, (!isBlank d) = true := by simpa using hcs
    have stop : rest.takeWhile (!isBlank ·) = [] ∧ rest.dropWhile (!isBlank ·) = rest := by
      cases rest with
      | nil => simp
      | cons d rest => simp [ends d rfl]
    rw [List.cons_append, words, if_neg (by simp [hc]), List.takeWhile_append_of_pos run,
      List.dropWhile_append_of_pos run, stop.1, stop.2, List.append_nil]

def lineWords (cs : List Char) : List String := (words cs).map String.ofList

theorem lineWords_append {word : String} (hword : IsWord word) {rest : List Char}
    (ends : ∀ c ∈ rest.head?, isBlank c = true) :
    lineWords (word.toList ++ rest) = word :: lineWords rest := by
  rw [lineWords, words_append hword.nonempty hword.solid ends, List.map_cons, String.ofList_toList]
  rfl

theorem lineWords_cons_of_isBlank {c : Char} (h : isBlank c = true) (cs : List Char) :
    lineWords (c :: cs) = lineWords cs := by
  rw [lineWords, words_cons_of_isBlank h]
  rfl

theorem isBlank_space : isBlank ' ' = true := by
  decide

theorem toList_intercalate_cons (word next : String) (line : List String) :
    (" ".intercalate (word :: next :: line)).toList =
      word.toList ++ ' ' :: (" ".intercalate (next :: line)).toList := by
  simp [String.intercalate_cons_cons, String.append_assoc]

theorem lineWords_line {line : List String} (h : ∀ word ∈ line, IsWord word) :
    lineWords (" ".intercalate line).toList = line := by
  induction line with
  | nil => simp [lineWords]
  | cons word line ih =>
    obtain ⟨hword, hline⟩ := List.forall_mem_cons.1 h
    cases line with
    | nil =>
      have last : lineWords (word.toList ++ []) = word :: lineWords [] :=
        lineWords_append hword (by simp)
      simpa [lineWords] using last
    | cons next line =>
      rw [toList_intercalate_cons, lineWords_append hword (by simp [isBlank_space]),
        lineWords_cons_of_isBlank isBlank_space, ih hline]

theorem newline_not_mem_line {line : List String} (h : ∀ word ∈ line, IsWord word) :
    '\n' ∉ (" ".intercalate line).toList := by
  have outside : ∀ word, IsWord word → '\n' ∉ word.toList := by
    intro word hword hmem
    have := hword.solid _ hmem
    revert this
    decide
  induction line with
  | nil => simp
  | cons word line ih =>
    obtain ⟨hword, hline⟩ := List.forall_mem_cons.1 h
    cases line with
    | nil => simpa using outside word hword
    | cons next line =>
      rw [toList_intercalate_cons, List.mem_append, List.mem_cons]
      rintro (hmem | hmem | hmem)
      · exact outside word hword hmem
      · revert hmem
        decide
      · exact ih hline hmem

theorem textLines_append {cs : List Char} (h : '\n' ∉ cs) (rest : List Char) :
    textLines (cs ++ '\n' :: rest) = cs :: textLines rest := by
  have run : ∀ c ∈ cs, (c != '\n') = true := by
    intro c hc
    exact bne_iff_ne.2 fun heq => h (heq ▸ hc)
  have first : (cs ++ '\n' :: rest).takeWhile (· != '\n') = cs := by
    rw [List.takeWhile_append_of_pos run]
    simp
  have later : (cs ++ '\n' :: rest).dropWhile (· != '\n') = '\n' :: rest := by
    rw [List.dropWhile_append_of_pos run]
    simp
  cases hcs : cs ++ '\n' :: rest with
  | nil => simp at hcs
  | cons c cs' =>
    rw [textLines, ← hcs, first, later, List.drop_one, List.tail_cons]

theorem textRows_words (text : String) :
    (textRows text).map (·.words) = (textLines text.toList).map lineWords := by
  calc (textRows text).map (·.words)
      = ((textLines text.toList).zipIdx.map Prod.fst).map lineWords := by
        simp only [textRows, List.map_map, Function.comp_def, lineWords]
    _ = (textLines text.toList).map lineWords := by rw [List.zipIdx_map_fst]

/-- The words of the lines of a text that are not blank. -/
def nonblankLines (cs : List Char) : List (List String) :=
  ((textLines cs).map lineWords).filter (· ≠ [])

theorem nonblankRows_words (text : String) :
    ((textRows text).filter (·.words ≠ [])).map (·.words) = nonblankLines text.toList := by
  rw [nonblankLines, ← textRows_words, List.filter_map]
  rfl

theorem toList_linesText_cons (line : List String) (lines : List (List String)) :
    (linesText (line :: lines)).toList =
      (" ".intercalate line).toList ++ '\n' :: (linesText lines).toList := by
  simp [linesText_cons, lineText]

theorem nonblankLines_append {line : List String} (h : IsLine line) (rest : List Char) :
    nonblankLines ((" ".intercalate line).toList ++ '\n' :: rest) = line :: nonblankLines rest := by
  rw [nonblankLines, textLines_append (newline_not_mem_line h.isWord), List.map_cons,
    lineWords_line h.isWord, List.filter_cons_of_pos (by simpa using h.nonempty)]
  rfl

theorem nonblankLines_linesText_append {lines : List (List String)}
    (h : ∀ line ∈ lines, IsLine line) (rest : List Char) :
    nonblankLines ((linesText lines).toList ++ rest) = lines ++ nonblankLines rest := by
  induction lines with
  | nil => simp [linesText]
  | cons line lines ih =>
    obtain ⟨hline, hlines⟩ := List.forall_mem_cons.1 h
    rw [toList_linesText_cons, List.append_assoc, List.cons_append, nonblankLines_append hline,
      ih hlines, List.cons_append]

/-- The lines that are read are those that were written, and none is dropped. -/
theorem nonblankLines_linesText {lines : List (List String)} (h : ∀ line ∈ lines, IsLine line) :
    nonblankLines (linesText lines).toList = lines := by
  have none : nonblankLines [] = [] := by simp [nonblankLines]
  simpa [none] using nonblankLines_linesText_append h []

theorem rowTokens_words (rows : List TextRow) :
    (rowTokens rows).map (·.word) = (rows.map (·.words)).flatten := by
  simp [rowTokens, List.flatMap, Function.comp_def]

end CnotRouting
