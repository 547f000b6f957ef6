import CnotRouting.EdgeLists
import CnotRouting.Proofs.ReadDevices
import CnotRouting.Proofs.WrittenLines

/-!
# Read edge lists

The reader of an edge list depends on the words of the text only. It accepts a number of qubits
within the limit and pairs of distinct qubits below that number after it, and gives the graph of
these pairs. A graph that is written as such a list, in any order and any layout, is read back.
-/

namespace CnotRouting

/-! ### The words of a text -/

/-- A word runs up to a blank or the end of the text. -/
theorem runs_to_blank {c : Char} (hc : ¬ isBlank c = true) (cs : List Char) :
    (∀ d ∈ c :: cs.takeWhile (!isBlank ·), isBlank d = false) ∧
      ∀ d ∈ (cs.dropWhile (!isBlank ·)).head?, isBlank d = true := by
  constructor
  · intro d hd
    rcases List.mem_cons.1 hd with rfl | hd
    · simpa using hc
    · simpa using List.all_eq_true.1 List.all_takeWhile d hd
  · have stop := List.head?_dropWhile_not (!isBlank ·) cs
    intro d hd
    rw [Option.mem_def] at hd
    simpa [hd] using stop

/-- A blank separates the words before it from those after it. -/
theorem words_append_of_isBlank {c : Char} (h : isBlank c = true) (cs rest : List Char) :
    words (cs ++ c :: rest) = words cs ++ words rest := by
  fun_induction words cs with
  | case1 => rw [List.nil_append, words_cons_of_isBlank h, List.nil_append]
  | case2 d cs hd ih => rw [List.cons_append, words_cons_of_isBlank hd, ih]
  | case3 d cs hd ih =>
    obtain ⟨solid, stop⟩ := runs_to_blank hd cs
    have ends : ∀ x ∈ (cs.dropWhile (!isBlank ·) ++ c :: rest).head?, isBlank x = true := by
      cases later : cs.dropWhile (!isBlank ·) with
      | nil => simpa using h
      | cons x more => simpa [later] using stop
    have parts : d :: cs ++ c :: rest =
        (d :: cs.takeWhile (!isBlank ·)) ++ (cs.dropWhile (!isBlank ·) ++ c :: rest) := by
      rw [List.cons_append, List.cons_append, ← List.append_assoc, List.takeWhile_append_dropWhile]
    rw [parts, words_append (List.cons_ne_nil _ _) solid ends, ih, List.cons_append]

theorem isBlank_newline : isBlank '\n' = true := by
  decide

/-- The words of a text are those of its lines, one line after the other. -/
theorem flatten_lineWords_textLines (cs : List Char) :
    ((textLines cs).map lineWords).flatten = lineWords cs := by
  fun_induction textLines cs with
  | case1 => simp [lineWords]
  | case2 c cs ih =>
    rw [List.map_cons, List.flatten_cons, ih]
    have parts := List.takeWhile_append_dropWhile (p := (· != '\n')) (l := c :: cs)
    cases later : (c :: cs).dropWhile (· != '\n') with
    | nil =>
      rw [later, List.append_nil] at parts
      rw [parts]
      simp [lineWords]
    | cons d rest =>
      obtain rfl : d = '\n' := by
        have stop := List.head?_dropWhile_not (· != '\n') (c :: cs)
        simpa [later] using stop
      conv_rhs => rw [← parts, later]
      simp [lineWords, words_append_of_isBlank isBlank_newline]

theorem rowTokens_textRows (text : String) :
    (rowTokens (textRows text)).map (·.word) = lineWords text.toList := by
  rw [rowTokens_words, textRows_words, flatten_lineWords_textLines]

/-- A text in which some words stand in order, with any blanks before, between and after them. -/
inductive IsLaidOut : List String → List Char → Prop where
  | done : IsLaidOut [] []
  | blank {c : Char} {words : List String} {cs : List Char} (hc : isBlank c = true)
      (h : IsLaidOut words cs) : IsLaidOut words (c :: cs)
  | word {word : String} {words : List String} {cs : List Char} (hword : IsWord word)
      (ends : ∀ c ∈ cs.head?, isBlank c = true) (h : IsLaidOut words cs) :
      IsLaidOut (word :: words) (word.toList ++ cs)

theorem IsLaidOut.lineWords_eq {words : List String} {cs : List Char} (h : IsLaidOut words cs) :
    lineWords cs = words := by
  induction h with
  | done => simp [lineWords]
  | blank hc _ ih => rw [lineWords_cons_of_isBlank hc, ih]
  | word hword ends _ ih => rw [lineWords_append hword ends, ih]

/-- The words of a text are laid out in it, and no others are. -/
theorem isLaidOut_iff {ws : List String} {cs : List Char} : IsLaidOut ws cs ↔ lineWords cs = ws := by
  refine ⟨IsLaidOut.lineWords_eq, ?_⟩
  rintro rfl
  rw [lineWords]
  fun_induction words cs with
  | case1 => exact .done
  | case2 c cs hc ih => exact .blank hc ih
  | case3 c cs hc ih =>
    obtain ⟨solid, stop⟩ := runs_to_blank hc cs
    have first : IsWord (String.ofList (c :: cs.takeWhile (!isBlank ·))) :=
      ⟨by simp, by simpa using solid⟩
    have laid := ih.word first stop
    rwa [String.toList_ofList, List.cons_append, List.takeWhile_append_dropWhile] at laid

/-! ### Pairs of qubits -/

/-- The ends of the edges of a list, one edge after the other. -/
def edgeEnds (edges : List (Nat × Nat)) : List Nat := edges.flatMap fun e => [e.1, e.2]

/-- Numerals and the numbers that they denote. -/
abbrev Denote : List String → List Nat → Prop :=
  List.Forall₂ fun word n => numeral? wordBound word = some n

theorem Token.numeral_eq_ok_iff {t : Token} {role : Numeral} {n : Nat} :
    t.numeral role = .ok n ↔ numeral? wordBound t.word = some n := by
  rw [Token.numeral]
  split <;> simp_all

theorem Token.qubit_eq_ok_iff {t : Token} {size q : Nat} :
    t.qubit size = .ok q ↔ numeral? wordBound t.word = some q ∧ q < size := by
  rw [Token.qubit, bind_eq_ok_iff]
  simp only [Token.numeral_eq_ok_iff, require_bind_eq_ok_iff]
  constructor
  · rintro ⟨n, hn, below, h⟩
    cases h
    exact ⟨hn, below⟩
  · rintro ⟨hq, below⟩
    exact ⟨q, hq, below, rfl⟩

theorem takeNumeral_eq_ok_iff {last line n : Nat} {role : Numeral} {tokens rest : List Token} :
    takeNumeral last role tokens = .ok (line, n, rest) ↔
      ∃ t, tokens = t :: rest ∧ t.line = line ∧ numeral? wordBound t.word = some n := by
  cases tokens with
  | nil => simp [takeNumeral, takeToken, bind, Except.bind]
  | cons t tokens =>
    have taken : takeToken last (.numeral role) (t :: tokens) = .ok (t, tokens) := rfl
    rw [takeNumeral, bind_of_ok taken, bind_eq_ok_iff]
    simp only [Token.numeral_eq_ok_iff]
    constructor
    · rintro ⟨m, hm, h⟩
      cases h
      exact ⟨t, rfl, rfl, hm⟩
    · rintro ⟨u, h, rfl, hn⟩
      cases h
      exact ⟨n, hn, rfl⟩

/-- The reader takes the words in pairs, and accepts them if each pair is an edge. -/
theorem readEdges_eq_ok_iff {last size : Nat} {tokens : List Token} {edges : List (Nat × Nat)} :
    readEdges last size tokens = .ok edges ↔
      Denote (tokens.map (·.word)) (edgeEnds edges) ∧ ∀ e ∈ edges, CouplingGraph.JoinsBelow size e := by
  fun_induction readEdges last size tokens generalizing edges with
  | case1 => cases edges <;> simp [edgeEnds]
  | case2 t =>
    constructor
    · intro h
      obtain ⟨_, _, h⟩ := bind_eq_ok_iff.1 h
      cases h
    · rintro ⟨denote, -⟩
      cases edges with
      | nil => cases denote
      | cons e edges => cases denote with | cons _ rest => cases rest
  | case3 t u rest ih =>
    simp only [bind_eq_ok_iff, Token.qubit_eq_ok_iff, require_eq_ok_iff, ih]
    constructor
    · rintro ⟨v, ⟨hv, below⟩, w, ⟨hw, below'⟩, -, distinct, more, ⟨denote, joins⟩, h⟩
      cases h
      exact ⟨.cons hv (.cons hw denote), List.forall_mem_cons.2 ⟨⟨below, below', distinct⟩, joins⟩⟩
    · rintro ⟨denote, joins⟩
      cases edges with
      | nil => cases denote
      | cons e edges =>
        obtain ⟨⟨below, below', distinct⟩, joins⟩ := List.forall_mem_cons.1 joins
        cases denote with
        | cons hv denote =>
          cases denote with
          | cons hw denote =>
            exact ⟨_, ⟨hv, below⟩, _, ⟨hw, below'⟩, (), distinct, _, ⟨denote, joins⟩, rfl⟩

/-! ### Graphs -/

namespace CouplingGraph

theorem edgeFault?_eq_none_iff {n : Nat} {e : Nat × Nat} :
    edgeFault? n e = none ↔ JoinsBelow n e := by
  unfold edgeFault? JoinsBelow
  split
  · simp
    omega
  · split
    · simp
      omega
    · simp
      omega

/-- The graph of a list of edges is made exactly if every edge joins distinct qubits of it. -/
theorem ofEdges_eq_ok_iff {n : Nat} {edges : List (Nat × Nat)} {g : CouplingGraph} :
    ofEdges n edges = .ok g ↔ (∀ e ∈ edges, JoinsBelow n e) ∧ g = ofPairs n edges := by
  have none_iff : edges.findSome? (edgeFault? n) = none ↔ ∀ e ∈ edges, JoinsBelow n e := by
    rw [List.findSome?_eq_none_iff]
    exact forall₂_congr fun e _ => edgeFault?_eq_none_iff
  rw [← none_iff, ofEdges]
  split
  · simp_all
  · simp_all [eq_comm]

/-- Some words that make up an edge list: a number of qubits within the limit, and after it the ends
of edges between distinct qubits below that number. -/
structure IsEdgeList (words : List String) (n : Nat) (edges : List (Nat × Nat)) : Prop where
  denote : Denote words (n :: edgeEnds edges)
  size_le : n ≤ sizeLimit
  joins : ∀ e ∈ edges, JoinsBelow n e

/-- A text is accepted exactly if its words make up an edge list. -/
theorem parseEdgeList_eq_ok_iff {text : String} {g : CouplingGraph} :
    parseEdgeList text = .ok g ↔
      ∃ n edges, IsEdgeList (lineWords text.toList) n edges ∧ g = ofPairs n edges := by
  rw [← rowTokens_textRows]
  simp only [parseEdgeList, bind_eq_ok_iff, require_eq_ok_iff, readEdges_eq_ok_iff]
  constructor
  · rintro ⟨⟨line, n, rest⟩, hcount, -, size_le, edges, ⟨denote, joins⟩, h⟩
    cases h
    obtain ⟨t, tokens, -, count⟩ := takeNumeral_eq_ok_iff.1 hcount
    rw [tokens]
    exact ⟨n, edges, ⟨.cons count denote, size_le, joins⟩, rfl⟩
  · rintro ⟨n, edges, ⟨denote, size_le, joins⟩, rfl⟩
    obtain ⟨word, rest, count, denote, words⟩ := List.forall₂_cons_right_iff.1 denote
    obtain ⟨t, tokens, all, rfl, rfl⟩ := List.map_eq_cons_iff.1 words
    rw [all]
    exact ⟨(t.line, n, tokens), takeNumeral_eq_ok_iff.2 ⟨t, rfl, rfl, count⟩, (), size_le, edges,
      ⟨denote, joins⟩, rfl⟩

theorem loadEdgeList_toUTF8 (text : String) :
    loadEdgeList text.toUTF8 = (parseEdgeList text).mapError .format := by
  rw [loadEdgeList, decodeText_toUTF8]
  rfl

/-- Edges that are listed in any order and any number of times make up the graph again. -/
theorem IsValid.ofEdges_eq {g : CouplingGraph} (valid : g.IsValid) {edges : List (Nat × Nat)}
    (same : ∀ e, e ∈ edges ↔ e ∈ g.edges) : ofEdges g.size edges = .ok g := by
  have edge : ∀ v w, (v, w) ∈ edges ↔ g.hasEdge v w = true := fun v w =>
    (same _).trans (mem_edges valid.complete)
  have joins : ∀ e ∈ edges, JoinsBelow g.size e := by
    intro e he
    have marked := (edge e.1 e.2).1 he
    have below := lt_size_of_hasEdge marked
    exact ⟨below.1, below.2, valid.ne marked⟩
  refine ofEdges_eq_ok_iff.2 ⟨joins, valid.ext (isValid_ofPairs joins) rfl fun v w => ?_⟩
  rw [hasEdge_ofPairs fun e he => ⟨(joins e he).1, (joins e he).2.1⟩]
  exact (edge v w).symm

/-- The words of the edge list of some edges: the number of qubits, then the ends of each edge. -/
def edgeListWords (n : Nat) (edges : List (Nat × Nat)) : List String :=
  (n :: edgeEnds edges).map Nat.repr

theorem isEdgeList_edgeListWords {n : Nat} {edges : List (Nat × Nat)} (size_le : n ≤ sizeLimit)
    (joins : ∀ e ∈ edges, JoinsBelow n e) : IsEdgeList (edgeListWords n edges) n edges := by
  have limit : sizeLimit < wordBound := by decide
  refine ⟨?_, size_le, joins⟩
  rw [Denote, edgeListWords, List.forall₂_map_left_iff, List.forall₂_same]
  intro q hq
  apply numeral?_repr
  rcases List.mem_cons.1 hq with rfl | hq
  · omega
  · obtain ⟨e, he, hq⟩ := List.mem_flatMap.1 hq
    have := joins e he
    simp only [List.mem_cons, List.not_mem_nil, or_false] at hq
    rw [JoinsBelow] at this
    rcases hq with rfl | rfl <;> omega

end CouplingGraph

/-- The reader accepts a text exactly if its words are a number of qubits within the limit and, in
pairs, the ends of edges between distinct qubits below it, and gives the graph of these edges. So a
valid graph within the limit is read back from every text that lists its edges, in any order, with
any repetitions and in any layout. -/
theorem edge_list_reads_listed_graph (text : String) :
    (∀ g, CouplingGraph.loadEdgeList text.toUTF8 = .ok g ↔
      ∃ n edges, CouplingGraph.IsEdgeList (lineWords text.toList) n edges ∧
        CouplingGraph.ofEdges n edges = .ok g) ∧
    ∀ (g : CouplingGraph) (edges : List (Nat × Nat)), g.IsValid → g.size ≤ sizeLimit →
      (∀ e, e ∈ edges ↔ e ∈ g.edges) →
      IsLaidOut (CouplingGraph.edgeListWords g.size edges) text.toList →
      CouplingGraph.loadEdgeList text.toUTF8 = .ok g := by
  have accepted : ∀ g, CouplingGraph.loadEdgeList text.toUTF8 = .ok g ↔
      ∃ n edges, CouplingGraph.IsEdgeList (lineWords text.toList) n edges ∧
        CouplingGraph.ofEdges n edges = .ok g := by
    intro g
    rw [CouplingGraph.loadEdgeList_toUTF8, mapError_eq_ok_iff, CouplingGraph.parseEdgeList_eq_ok_iff]
    apply exists₂_congr
    intro n edges
    apply and_congr_right
    intro list
    rw [CouplingGraph.ofEdges_eq_ok_iff]
    exact (and_iff_right list.joins).symm
  refine ⟨accepted, ?_⟩
  intro g edges valid size_le same laid
  have made := valid.ofEdges_eq same
  have joins := (CouplingGraph.ofEdges_eq_ok_iff.1 made).1
  refine (accepted g).2 ⟨g.size, edges, ?_, made⟩
  rw [laid.lineWords_eq]
  exact CouplingGraph.isEdgeList_edgeListWords size_le joins

/-- The edges of a chain, one of them twice and with its ends on two lines. -/
theorem edge_list_reads_listed_graph_chain_three :
    let text := "3\n0 1\n\n 1\t2  0\n1\n"
    IsLaidOut (CouplingGraph.edgeListWords 3 [(0, 1), (1, 2), (0, 1)]) text.toList ∧
      CouplingGraph.loadEdgeList text.toUTF8 = .ok (.chain 3) := by
  intro text
  have laid : IsLaidOut (CouplingGraph.edgeListWords 3 [(0, 1), (1, 2), (0, 1)]) text.toList :=
    isLaidOut_iff.2 (by decide +kernel)
  have edges : (CouplingGraph.chain 3).edges = [(0, 1), (1, 2)] := by decide
  have same : ∀ e, e ∈ [(0, 1), (1, 2), (0, 1)] ↔ e ∈ (CouplingGraph.chain 3).edges := by
    intro e
    rw [edges]
    simp
    tauto
  have valid := CouplingGraph.isValid_chain 3
  exact ⟨laid, (edge_list_reads_listed_graph text).2 _ _ valid (by decide) same laid⟩

end CnotRouting
