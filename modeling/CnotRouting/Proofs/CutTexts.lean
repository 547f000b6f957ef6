import CnotRouting.Proofs.WrittenLines
import Mathlib.Data.List.TakeWhile

/-!
# Cut texts

A text that breaks off before its end keeps some of its lines. The line at the cut keeps some of its
words, and the word at the cut may lose its last characters. No other line or word changes.
-/

namespace CnotRouting

/-- What is left of a list that was cut off before the end of an element, or inside it, where
`IsPart` says what may be left of that element. -/
inductive IsCut {α : Type} (IsPart : α → α → Prop) : List α → List α → Prop where
  | before {a : α} {l : List α} : IsCut IsPart (a :: l) []
  | inside {a part : α} {l : List α} (h : IsPart a part) : IsCut IsPart (a :: l) [part]
  | after {a : α} {l cut : List α} (h : IsCut IsPart l cut) : IsCut IsPart (a :: l) (a :: cut)

namespace IsCut

variable {α : Type} {IsPart : α → α → Prop} {l more cut : List α}

theorem append_left (h : IsCut IsPart l cut) (more : List α) : IsCut IsPart (l ++ more) cut := by
  induction h with
  | before => exact .before
  | inside h => exact .inside h
  | after _ ih => exact .after ih

theorem append_right (l : List α) (h : IsCut IsPart more cut) : IsCut IsPart (l ++ more) (l ++ cut) := by
  induction l with
  | nil => exact h
  | cons a l ih => exact .after ih

theorem of_cons {a b : α} (h : IsCut IsPart (a :: l) (b :: cut)) :
    (b = a ∧ IsCut IsPart l cut) ∨ (IsPart a b ∧ cut = []) := by
  cases h with
  | inside h => exact .inr ⟨h, rfl⟩
  | after h => exact .inl ⟨rfl, h⟩

/-- A cut falls into the first part of a list, or behind it. -/
theorem of_append (h : IsCut IsPart (l ++ more) cut) :
    IsCut IsPart l cut ∨ ∃ rest, cut = l ++ rest ∧ IsCut IsPart more rest := by
  induction l generalizing cut with
  | nil => exact .inr ⟨cut, rfl, h⟩
  | cons a l ih =>
    cases h with
    | before => exact .inl .before
    | inside h => exact .inl (.inside h)
    | after h =>
      rcases ih h with first | ⟨rest, rfl, later⟩
      · exact .inl (.after first)
      · exact .inr ⟨rest, rfl, later⟩

/-- Nothing is lost from the count only if the last element was cut. -/
theorem exists_of_length_le (h : IsCut IsPart l cut) (length : l.length ≤ cut.length) :
    ∃ init a part, l = init ++ [a] ∧ IsPart a part := by
  induction h with
  | before => simp at length
  | @inside a part l h =>
    obtain rfl : l = [] := by simpa using length
    exact ⟨[], a, part, rfl, h⟩
  | @after b l cut _ ih =>
    obtain ⟨init, a, part, rfl, h⟩ := ih (by simpa using length)
    exact ⟨b :: init, a, part, rfl, h⟩

/-- An element of a cut list is one before the last, or a part of one. -/
theorem exists_of_mem (h : IsCut IsPart l cut) {a : α} (ha : a ∈ cut) :
    a ∈ l.dropLast ∨ ∃ b ∈ l, IsPart b a := by
  induction h with
  | before => cases ha
  | inside h =>
    obtain rfl : a = _ := List.mem_singleton.1 ha
    exact .inr ⟨_, List.mem_cons_self, h⟩
  | @after b l cut h ih =>
    have nonempty : l ≠ [] := by
      rintro rfl
      cases h
    rw [List.dropLast_cons_of_ne_nil nonempty]
    rcases List.mem_cons.1 ha with rfl | ha
    · exact .inl List.mem_cons_self
    · rcases ih ha with kept | ⟨c, hc, part⟩
      · exact .inl (List.mem_cons_of_mem b kept)
      · exact .inr ⟨c, List.mem_cons_of_mem b hc, part⟩

end IsCut

structure IsWordPart (word part : String) : Prop where
  nonempty : part.toList ≠ []
  starts : part.toList <+: word.toList
  ne : part ≠ word

/-- What is left of a line that was cut, if any word of it is left. -/
structure IsLinePart (line part : List String) : Prop where
  nonempty : part ≠ []
  isCut : IsCut IsWordPart line part

theorem IsCut.flatten {lines cut : List (List String)} (h : IsCut IsLinePart lines cut)
    (nonempty : ∀ line ∈ lines, line ≠ []) : IsCut IsWordPart lines.flatten cut.flatten := by
  induction h with
  | @before line lines =>
    obtain ⟨word, line, rfl⟩ := List.exists_cons_of_ne_nil (nonempty _ List.mem_cons_self)
    exact .before
  | inside h => simpa using h.isCut.append_left _
  | @after line lines _ _ ih =>
    exact (ih fun line' h' => nonempty line' (List.mem_cons_of_mem line h')).append_right line

theorem not_isWordPart_of_length {word : String} (single : word.toList.length = 1) (part : String) :
    ¬IsWordPart word part := by
  intro h
  obtain ⟨c, hc⟩ := List.length_eq_one_iff.1 single
  have starts := h.starts
  rw [hc, List.prefix_cons_iff] at starts
  rcases starts with empty | ⟨more, hpart, hmore⟩
  · exact h.nonempty empty
  · obtain rfl := List.prefix_nil.1 hmore
    exact h.ne (String.toList_inj.1 (hpart.trans hc.symm))

/-- A number that lost its last digits is smaller, and is not zero. -/
theorem IsWordPart.exists_lt {n : Nat} {part : String} (h : IsWordPart n.repr part) :
    ∃ m, part = m.repr ∧ 0 < m ∧ m < n := by
  induction n using Nat.strongRecOn with
  | _ n ih =>
    by_cases digit : n < 10
    · have single : n.repr.toList.length = 1 := by
        simp [Nat.toList_repr, Nat.toDigits_of_lt_base digit]
      exact absurd h (not_isWordPart_of_length single part)
    · have split : n.repr.toList = (n / 10).repr.toList ++ [(n % 10).digitChar] := by
        rw [Nat.toList_repr, Nat.toList_repr, Nat.toDigits_of_base_le (by decide) (by omega)]
      have shorter : part.toList <+: (n / 10).repr.toList := by
        have starts := h.starts
        rw [split] at starts
        refine (List.prefix_concat_iff.1 starts).resolve_left fun same => h.ne ?_
        exact String.toList_inj.1 (same.trans split.symm)
      by_cases same : part = (n / 10).repr
      · exact ⟨n / 10, same, by omega, by omega⟩
      · obtain ⟨m, hm, positive, less⟩ := ih (n / 10) (by omega) ⟨h.nonempty, shorter, same⟩
        exact ⟨m, hm, positive, by omega⟩

/-! ### The words of a line -/

theorem prefix_append_cons {α : Type} {cs first rest : List α} {c : α}
    (h : cs <+: first ++ c :: rest) :
    cs <+: first ∨ ∃ more, cs = first ++ c :: more ∧ more <+: rest := by
  rcases List.prefix_or_prefix_of_prefix h (List.prefix_append first (c :: rest)) with
    within | ⟨later, rfl⟩
  · exact .inl within
  · rcases List.prefix_cons_iff.1 ((List.prefix_append_right_inj first).1 h) with
      rfl | ⟨more, rfl, hmore⟩
    · exact .inl (by simp)
    · exact .inr ⟨more, rfl, hmore⟩

/-- What a cut within a word leaves of a line that begins with it. -/
theorem IsWord.isCut_of_prefix {word : String} (hword : IsWord word) {cs : List Char}
    (h : cs <+: word.toList) (ne : cs ≠ word.toList) (line : List String) :
    IsCut IsWordPart (word :: line) (lineWords cs) := by
  by_cases empty : cs = []
  · simpa [lineWords, empty] using IsCut.before
  · have solid : ∀ c ∈ cs, isBlank c = false := fun c hc => hword.solid c (h.subset hc)
    have one : words (cs ++ []) = cs :: words [] := words_append empty solid (by simp)
    rw [lineWords, ← List.append_nil cs, one, words_nil, List.map_singleton]
    refine .inside ⟨by simpa using empty, by simpa using h, ?_⟩
    rintro rfl
    simp at ne

theorem isCut_line {line : List String} (h : ∀ word ∈ line, IsWord word) {cs : List Char}
    (start : cs <+: (" ".intercalate line).toList) (ne : cs ≠ (" ".intercalate line).toList) :
    IsCut IsWordPart line (lineWords cs) := by
  induction line generalizing cs with
  | nil => simp_all
  | cons word line ih =>
    obtain ⟨hword, hline⟩ := List.forall_mem_cons.1 h
    cases line with
    | nil =>
      rw [String.intercalate_singleton] at start ne
      exact hword.isCut_of_prefix start ne []
    | cons next line =>
      rw [toList_intercalate_cons] at start ne
      rcases prefix_append_cons start with within | ⟨more, rfl, hmore⟩
      · by_cases whole : cs = word.toList
        -- only the space behind the word is missing, and the word is kept
        · have one : lineWords (word.toList ++ []) = word :: lineWords [] :=
            lineWords_append hword (by simp)
          rw [whole, ← List.append_nil word.toList, one]
          simpa [lineWords] using IsCut.after IsCut.before
        · exact hword.isCut_of_prefix within whole _
      · rw [lineWords_append hword (by simp [isBlank_space]), lineWords_cons_of_isBlank isBlank_space]
        refine .after (ih hline hmore ?_)
        rintro rfl
        exact ne rfl

/-! ### The lines of a text -/

theorem nonblankLines_of_not_mem {cs : List Char} (h : '\n' ∉ cs) :
    nonblankLines cs = [lineWords cs].filter (· ≠ []) := by
  have run : ∀ c ∈ cs, (c != '\n') = true := by
    intro c hc
    exact bne_iff_ne.2 fun heq => h (heq ▸ hc)
  cases cs with
  | nil => simp [nonblankLines, lineWords]
  | cons c cs =>
    have first : (c :: cs).takeWhile (· != '\n') = c :: cs := List.takeWhile_eq_self_iff.2 run
    have later : (c :: cs).dropWhile (· != '\n') = [] := List.dropWhile_eq_nil_iff.2 run
    rw [nonblankLines, textLines, first, later]
    simp

theorem nonblankLines_line {line : List String} (h : IsLine line) :
    nonblankLines (" ".intercalate line).toList = [line] := by
  rw [nonblankLines_of_not_mem (newline_not_mem_line h.isWord), lineWords_line h.isWord]
  simpa using h.nonempty

/-- The line feed at the end of a text may be missing. -/
theorem exists_without_newline {lines : List (List String)} (h : ∀ line ∈ lines, IsLine line)
    (nonempty : lines ≠ []) :
    ∃ body, linesText lines = body ++ "\n" ∧ nonblankLines body.toList = lines := by
  obtain ⟨init, last, rfl⟩ : ∃ init last, lines = init ++ [last] :=
    ⟨_, _, (List.dropLast_concat_getLast nonempty).symm⟩
  refine ⟨linesText init ++ " ".intercalate last, ?_, ?_⟩
  · rw [linesText_append]
    simp [linesText, lineText, String.append_assoc]
  · rw [String.toList_append,
      nonblankLines_linesText_append fun line hline => h line (List.mem_append_left _ hline),
      nonblankLines_line (h last (by simp))]

/-- The lines of a text that was cut are cut, unless it lacks the last line feed only. -/
theorem isCut_linesText {lines : List (List String)} (h : ∀ line ∈ lines, IsLine line)
    {cs : List Char} (start : cs <+: (linesText lines).toList) (ne : cs ≠ (linesText lines).toList)
    (body : cs ++ ['\n'] ≠ (linesText lines).toList) : IsCut IsLinePart lines (nonblankLines cs) := by
  induction lines generalizing cs with
  | nil => simp_all [linesText]
  | cons line lines ih =>
    obtain ⟨hline, hlines⟩ := List.forall_mem_cons.1 h
    rw [toList_linesText_cons] at start ne body
    rcases prefix_append_cons start with within | ⟨more, rfl, hmore⟩
    · by_cases whole : cs = (" ".intercalate line).toList
      -- the line is complete without its line feed, which matters only if more lines follow
      · rw [whole, nonblankLines_line hline]
        cases lines with
        | nil => exact absurd (by simp [whole, linesText]) body
        | cons next lines => exact .after .before
      · have plain : '\n' ∉ cs := fun hc => newline_not_mem_line hline.isWord (within.subset hc)
        have cut := isCut_line hline.isWord within whole
        rw [nonblankLines_of_not_mem plain]
        by_cases blank : lineWords cs = []
        · simpa [blank] using IsCut.before
        · rw [List.filter_cons_of_pos (by simpa using blank), List.filter_nil]
          exact .inside ⟨blank, cut⟩
    · rw [nonblankLines_append hline]
      exact .after (ih hlines hmore (by simpa using ne) (by simpa using body))

end CnotRouting
