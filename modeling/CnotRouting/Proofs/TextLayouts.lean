import CnotRouting.Proofs.ReadDevices
import CnotRouting.Proofs.SavedDevices

/-!
# Layouts of device texts

The header of a device text is read line by line, and the rest of it word by word. Two texts with
the same header lines and the same words after them are read alike: both give the same device, or
both are refused with the same message, though not always at the same line. Every reader is taken
through both texts at once; what is left for the next reader is again alike.
-/

namespace CnotRouting

variable {α β γ δ : Type} {R : α → β → Prop} {S : γ → δ → Prop}

/-! ### Readers that end alike -/

/-- Two readers end alike if they give related results, or the same fault at lines of their own. -/
inductive Alike (R : α → β → Prop) : Except FormatError α → Except FormatError β → Prop
  | ok {a : α} {b : β} (related : R a b) : Alike R (.ok a) (.ok b)
  | error {e f : FormatError} (fault : e.fault = f.fault) : Alike R (.error e) (.error f)

/-- Results with the same value, and alike in what is left to be read. -/
def SameValue (rest : β → β → Prop) (x y : α × β) : Prop := x.1 = y.1 ∧ rest x.2 y.2

namespace Alike

theorem bind {x : Except FormatError α} {y : Except FormatError β} {f : α → Except FormatError γ}
    {g : β → Except FormatError δ} (h : Alike R x y) (hfg : ∀ a b, R a b → Alike S (f a) (g b)) :
    Alike S (x >>= f) (y >>= g) := by
  cases h with
  | ok related => exact hfg _ _ related
  | error fault => exact .error fault

theorem bind_eq {x y : Except FormatError α} {f : α → Except FormatError γ}
    {g : α → Except FormatError δ} (h : Alike Eq x y) (hfg : ∀ a, Alike S (f a) (g a)) :
    Alike S (x >>= f) (y >>= g) := by
  refine h.bind ?_
  rintro a _ rfl
  exact hfg a

theorem bind_rest {rest : β → β → Prop} {x y : Except FormatError (α × β)}
    {f : α × β → Except FormatError γ} {g : α × β → Except FormatError δ}
    (h : Alike (SameValue rest) x y)
    (hfg : ∀ a left left', rest left left' → Alike S (f (a, left)) (g (a, left'))) :
    Alike S (x >>= f) (y >>= g) := by
  refine h.bind ?_
  rintro ⟨a, left⟩ ⟨_, left'⟩ ⟨rfl, hrest⟩
  exact hfg a left left' hrest

theorem require {p : Prop} [Decidable p] {x : Except FormatError α} {y : Except FormatError β}
    (line line' : Nat) (fault : FormatFault) (h : p → Alike R x y) :
    Alike R (require p line fault >>= fun _ => x) (require p line' fault >>= fun _ => y) := by
  rw [CnotRouting.require, CnotRouting.require]
  split
  · exact h ‹_›
  · exact .error rfl

theorem mapM {f g : α → Except FormatError β} {l : List α} (h : ∀ a ∈ l, Alike Eq (f a) (g a)) :
    Alike Eq (l.mapM f) (l.mapM g) := by
  induction l with
  | nil => exact .ok rfl
  | cons a l ih =>
    obtain ⟨ha, hl⟩ := List.forall_mem_cons.1 h
    rw [List.mapM_cons, List.mapM_cons]
    exact ha.bind_eq fun b => (ih hl).bind_eq fun bs => .ok rfl

end Alike

/-! ### Words in a row -/

/-- Tokens with the same words, on any lines. -/
abbrev SameWords : List Token → List Token → Prop := List.Forall₂ fun t u => t.word = u.word

theorem sameWords_iff {tokens tokens' : List Token} :
    SameWords tokens tokens' ↔ tokens.map (·.word) = tokens'.map (·.word) := by
  rw [← List.forall₂_eq_eq_eq, List.forall₂_map_left_iff, List.forall₂_map_right_iff]

variable {t u : Token} {tokens tokens' : List Token}

theorem Token.alike_numeral (h : t.word = u.word) (role : Numeral) :
    Alike Eq (t.numeral role) (u.numeral role) := by
  rw [Token.numeral, Token.numeral, ← h]
  split
  · exact .ok rfl
  · exact .error rfl

theorem Token.alike_qubit (h : t.word = u.word) (size : Nat) :
    Alike Eq (t.qubit size) (u.qubit size) :=
  (alike_numeral h .qubit).bind_eq fun _ => .require _ _ _ fun _ => .ok rfl

theorem alike_takeToken (h : SameWords tokens tokens') (last last' : Nat)
    (needed : Expectation) :
    Alike (fun x y => x.1.word = y.1.word ∧ SameWords x.2 y.2) (takeToken last needed tokens)
      (takeToken last' needed tokens') := by
  cases h with
  | nil => exact .error rfl
  | cons word rest => exact .ok ⟨word, rest⟩

theorem alike_takeKeyword (h : SameWords tokens tokens') (last last' : Nat) (word : String) :
    Alike SameWords (takeKeyword last word tokens) (takeKeyword last' word tokens') := by
  refine (alike_takeToken h last last' _).bind ?_
  rintro ⟨t, rest⟩ ⟨u, rest'⟩ ⟨hword, hrest⟩
  simp only at hword
  simp only [hword]
  exact .require _ _ _ fun _ => .ok hrest

/-- The two numbers are the same, at lines of their own. -/
theorem alike_takeNumeral (h : SameWords tokens tokens') (last last' : Nat) (role : Numeral) :
    Alike (fun x y => SameValue SameWords x.2 y.2) (takeNumeral last role tokens)
      (takeNumeral last' role tokens') := by
  refine (alike_takeToken h last last' _).bind ?_
  rintro ⟨t, rest⟩ ⟨u, rest'⟩ ⟨hword, hrest⟩
  exact (Token.alike_numeral hword role).bind_eq fun n => .ok ⟨rfl, hrest⟩

/-! ### Routes -/

theorem alike_readQubits (h : SameWords tokens tokens') (last last' size count : Nat) :
    Alike Eq (readQubits last size count tokens) (readQubits last' size count tokens') := by
  induction count generalizing tokens tokens' with
  | zero =>
    rw [readQubits, readQubits]
    exact .ok rfl
  | succ count ih =>
    cases h with
    | nil => exact .error rfl
    | cons word rest =>
      exact (Token.alike_qubit word size).bind_eq fun q => (ih rest).bind_eq fun more => .ok rfl

theorem alike_requireEdges (g : CouplingGraph) (line line' : Nat) (s : Step) :
    Alike Eq (requireEdges g line s) (requireEdges g line' s) := by
  rw [requireEdges, requireEdges]
  split
  · exact .ok rfl
  · exact .error rfl

theorem alike_readSteps (h : SameWords tokens tokens') (last last' : Nat) (g : CouplingGraph) :
    Alike (SameValue SameWords) (readSteps last g tokens) (readSteps last' g tokens') := by
  -- the second reader branches on the same words, so the recursion of the first serves for both
  fun_induction readSteps last g tokens generalizing tokens' with
  | case1 =>
    cases h
    rw [readSteps]
    exact .error rfl
  | case2 t rest opens =>
    cases h with
    | cons word rest =>
      rw [readSteps, if_pos (word ▸ opens)]
      exact .ok ⟨rfl, rest⟩
  | case3 t rest proceeds unknown =>
    cases h with
    | cons word rest =>
      rw [word] at proceeds unknown
      rw [readSteps, if_neg proceeds, unknown]
      exact .error (by rw [word])
  | case4 t rest proceeds kind known ih =>
    cases h with
    | cons word rest =>
      rw [word] at proceeds known
      rw [readSteps, if_neg proceeds, known]
      refine (alike_readQubits rest last last' g.size kind.arity).bind_eq fun operands => ?_
      refine (alike_requireEdges g _ _ _).bind_eq fun _ => ?_
      exact (ih (List.forall₂_drop _ rest)).bind_rest fun more _ _ h => .ok ⟨rfl, h⟩

theorem alike_readRoute (h : SameWords tokens tokens') (last last' : Nat) (g : CouplingGraph)
    (v w expected : Nat) :
    Alike (SameValue SameWords) (readRoute last g v w expected tokens)
      (readRoute last' g v w expected tokens') := by
  refine (alike_takeToken h last last' _).bind ?_
  rintro ⟨t, rest⟩ ⟨u, rest'⟩ ⟨hword, h⟩
  simp only at hword
  simp only [hword]
  refine .require _ _ _ fun _ => ?_
  refine (alike_takeKeyword h last last' _).bind fun _ _ h => ?_
  refine (alike_readSteps h last last' g).bind_rest fun route _ _ h => ?_
  refine (alike_takeKeyword h last last' _).bind fun _ _ h => ?_
  refine (alike_takeNumeral h last last' _).bind ?_
  rintro ⟨line, cost, rest⟩ ⟨line', _, rest'⟩ ⟨rfl, h⟩
  refine .require _ _ _ fun _ => .require _ _ _ fun _ => .require _ _ _ fun _ => ?_
  exact .ok ⟨rfl, h⟩

theorem alike_readRoutes (h : SameWords tokens tokens') (last last' : Nat) (g : CouplingGraph)
    (pairs : List ((Nat × Nat) × Nat)) :
    Alike (SameValue SameWords) (readRoutes last g pairs tokens)
      (readRoutes last' g pairs tokens') := by
  induction pairs generalizing tokens tokens' with
  | nil => exact .ok ⟨rfl, h⟩
  | cons pair pairs ih =>
    obtain ⟨⟨v, w⟩, expected⟩ := pair
    rw [readRoutes, readRoutes]
    split
    · exact (ih h).bind_rest fun more _ _ h => .ok ⟨rfl, h⟩
    · refine (alike_readRoute h last last' g v w expected).bind_rest fun route _ _ h => ?_
      exact (ih h).bind_rest fun more _ _ h => .ok ⟨rfl, h⟩

theorem alike_requireEnd (h : SameWords tokens tokens') :
    Alike Eq (requireEnd tokens) (requireEnd tokens') := by
  cases h with
  | nil => exact .ok rfl
  | cons word rest => exact .error (by rw [word])

/-! ### The header -/

/-- The number of qubits that the first line of a device text announces, and 0 if it is none. -/
def announcedSize : List (List String) → Nat
  | [word] :: _ => (numeral? countBound word).getD 0
  | _ => 0

/-- The number of lines in the header of a device text: two for each qubit, after the first line. -/
def headerLength (lines : List (List String)) : Nat := 2 * announcedSize lines + 1

theorem headerLength_take (lines : List (List String)) :
    headerLength (lines.take (headerLength lines)) = headerLength lines := by
  match lines with
  | [] => rfl
  | [] :: _ => rfl
  | [word] :: _ => rfl
  | (_ :: _ :: _) :: _ => rfl

/-- Rows of which the first `n` have the same words, with the same words in a row after them. -/
structure SameLayout (n : Nat) (rows rows' : List TextRow) : Prop where
  header : (rows.map (·.words)).take n = (rows'.map (·.words)).take n
  body : ((rows.map (·.words)).drop n).flatten = ((rows'.map (·.words)).drop n).flatten

variable {n : Nat} {row : TextRow} {rows rows' : List TextRow}

theorem SameLayout.of_nil (h : SameLayout (n + 1) [] rows') : rows' = [] := by
  have header := h.header
  cases rows' with
  | nil => rfl
  | cons row' rows' => simp at header

theorem SameLayout.of_cons (h : SameLayout (n + 1) (row :: rows) rows') :
    ∃ row' more, rows' = row' :: more ∧ row.words = row'.words ∧ SameLayout n rows more := by
  obtain ⟨header, body⟩ := h
  cases rows' with
  | nil => simp at header
  | cons row' more =>
    simp only [List.map_cons, List.take_succ_cons, List.cons.injEq] at header
    exact ⟨row', more, rfl, header.1, header.2, body⟩

theorem SameLayout.sameWords (h : SameLayout 0 rows rows') :
    SameWords (rowTokens rows) (rowTokens rows') := by
  rw [sameWords_iff, rowTokens_words, rowTokens_words]
  exact h.body

theorem alike_readSize (h : SameLayout (headerLength (rows.map (·.words))) rows rows') :
    Alike (fun x y => x.1 = y.1 ∧ SameLayout (2 * x.1) x.2 y.2) (readSize rows)
      (readSize rows') := by
  fun_cases readSize rows with
  | case1 =>
    rw [h.of_nil]
    exact .error rfl
  | case2 line word rows invalid =>
    obtain ⟨⟨line', _⟩, more, rfl, rfl, -⟩ := h.of_cons
    rw [readSize, invalid]
    exact .error rfl
  | case3 line word rows n valid =>
    have size : announcedSize ([word] :: rows.map (·.words)) = n := by
      rw [announcedSize, valid, Option.getD_some]
    rw [List.map_cons, headerLength, size] at h
    obtain ⟨⟨line', _⟩, more, rfl, rfl, rest⟩ := h.of_cons
    rw [readSize, valid]
    exact .require _ _ _ fun _ => .ok ⟨rfl, rest⟩
  | case4 line words rows several =>
    obtain ⟨⟨line', _⟩, more, rfl, rfl, -⟩ := h.of_cons
    rw [readSize]
    · exact .error rfl
    · exact several

theorem alike_readMatrix {α : Type} {kind : MatrixRow} {size : Nat}
    {readEntry : (line v w : Nat) → String → Except FormatError α} (last last' : Nat)
    (entry : ∀ line line' v w word, Alike Eq (readEntry line v w word) (readEntry line' v w word))
    {qubits : List Nat} (h : SameLayout (n + qubits.length) rows rows') :
    Alike (SameValue (SameLayout n)) (readMatrix last kind size readEntry qubits rows)
      (readMatrix last' kind size readEntry qubits rows') := by
  induction qubits generalizing rows rows' with
  | nil =>
    rw [readMatrix, readMatrix]
    exact .ok ⟨rfl, h⟩
  | cons v qubits ih =>
    cases rows with
    | nil =>
      rw [h.of_nil]
      exact .error rfl
    | cons row rows =>
      obtain ⟨⟨line', _⟩, more, rfl, rfl, rest⟩ := h.of_cons
      rw [readMatrix, readMatrix]
      refine .require _ _ _ fun _ => ?_
      refine (Alike.mapM fun _ _ => entry _ _ _ _ _).bind_eq fun entries => ?_
      exact (ih rest).bind_rest fun more _ _ h => .ok ⟨rfl, h⟩

theorem alike_readMark (line line' v w : Nat) (word : String) :
    Alike Eq (readMark line v w word) (readMark line' v w word) := by
  rw [readMark, readMark]
  split_ifs
  · exact .error rfl
  · exact .ok rfl
  · exact .ok rfl
  · exact .error rfl

theorem alike_readCost (line line' v w : Nat) (word : String) :
    Alike Eq (readCost line v w word) (readCost line' v w word) := by
  have number :
      Alike Eq (Token.numeral ⟨line, word⟩ .cost) (Token.numeral ⟨line', word⟩ .cost) := by
    apply Token.alike_numeral
    rfl
  exact number.bind_eq fun c => .require _ _ _ fun _ => .ok rfl

/-! ### Whole texts -/

namespace Device

/-- The lines of the header of a text, as far as there are any. -/
def headerLines (text : String) : List (List String) :=
  (nonblankLines text.toList).take (headerLength (nonblankLines text.toList))

/-- The words after the header of a text. -/
def bodyWords (text : String) : List String :=
  ((nonblankLines text.toList).drop (headerLength (nonblankLines text.toList))).flatten

/-- Texts that differ at most in blank lines, in the blanks between words, and in how the words
after the header are spread over lines. -/
structure SameUpToLayout (text text' : String) : Prop where
  header : headerLines text = headerLines text'
  body : bodyWords text = bodyWords text'

variable {text text' : String}

theorem SameUpToLayout.headerLength_eq (h : SameUpToLayout text text') :
    headerLength (nonblankLines text.toList) = headerLength (nonblankLines text'.toList) := by
  have first := congrArg headerLength h.header
  rwa [headerLines, headerLines, headerLength_take, headerLength_take] at first

theorem SameUpToLayout.sameLayout (h : SameUpToLayout text text') :
    SameLayout (headerLength (nonblankLines text.toList))
      ((textRows text).filter (·.words ≠ [])) ((textRows text').filter (·.words ≠ [])) := by
  have header := h.header
  have body := h.body
  rw [headerLines, headerLines, ← h.headerLength_eq] at header
  rw [bodyWords, bodyWords, ← h.headerLength_eq] at body
  constructor
  · rwa [nonblankRows_words, nonblankRows_words]
  · rwa [nonblankRows_words, nonblankRows_words]

theorem SameUpToLayout.parse (h : SameUpToLayout text text') :
    Alike Eq (parse text) (parse text') := by
  have layout := h.sameLayout
  -- the length of the header is read off the rows that the reader has
  rw [← nonblankRows_words] at layout
  refine (alike_readSize layout).bind ?_
  rintro ⟨size, rows⟩ ⟨_, rows'⟩ ⟨rfl, h⟩
  -- of the lines left in the header, a half is taken for the graph and the other half for the costs
  have both : 2 * size = size + (List.range size).length := by
    rw [List.length_range, Nat.two_mul]
  have one : size = 0 + (List.range size).length := by
    rw [List.length_range, Nat.zero_add]
  simp only [both] at h
  refine (alike_readMatrix _ _ alike_readMark h).bind_rest fun marks rows rows' h => ?_
  rw [one] at h
  refine (alike_readMatrix _ _ alike_readCost h).bind_rest fun costs rows rows' h => ?_
  refine (alike_readRoutes h.sameWords _ _ _ _).bind_rest fun routes _ _ h => ?_
  exact (alike_requireEnd h).bind_eq fun _ => .ok rfl

end Device

/-- The reader does not depend on the layout of a text. From two texts with the same header lines
and the same words after the header, it reads the same device, or refuses both with the same
message. -/
theorem load_of_sameUpToLayout (text text' : String) (h : Device.SameUpToLayout text text') :
    (∃ d, Device.load text.toUTF8 = .ok d ∧ Device.load text'.toUTF8 = .ok d) ∨
      ∃ e f, Device.load text.toUTF8 = .error (.format e) ∧
        Device.load text'.toUTF8 = .error (.format f) ∧ e.fault.message = f.fault.message := by
  rw [Device.load_toUTF8, Device.load_toUTF8]
  have alike := h.parse
  generalize Device.parse text = x, Device.parse text' = y at alike
  cases alike with
  | @ok d _ related =>
    obtain rfl := related
    exact .inl ⟨d, rfl, rfl⟩
  | @error e f fault => exact .inr ⟨e, f, rfl, rfl, congrArg _ fault⟩

/-- The text of a device on two qubits with blank lines, other blanks, and routes that run over its
lines. -/
theorem load_of_sameUpToLayout_twoQubits :
    let relaid := "\n2\n- X\n\n -\t-\n0 0\n4 0\n" ++
      "\ncnot(0,1) => nop 0 1 cost\n= 0 cnot(1,0)\n=>  flip\n1 0 cost = 4"
    Device.SameUpToLayout Device.twoQubits.text relaid ∧
      Device.load relaid.toUTF8 = .ok .twoQubits := by
  intro relaid
  have layout : Device.SameUpToLayout Device.twoQubits.text relaid :=
    ⟨by decide +kernel, by decide +kernel⟩
  have savable : Device.twoQubits.IsSavable :=
    Device.isSavable_of_ofGraph (CouplingGraph.isValid_chain 2) (by decide) Device.ofGraph_chain_two
  refine ⟨layout, ?_⟩
  rcases load_of_sameUpToLayout _ _ layout with ⟨d, saved, read⟩ | ⟨e, f, refused, -⟩
  · rw [savable.load_text] at saved
    exact saved ▸ read
  · rw [savable.load_text] at refused
    cases refused

end CnotRouting
