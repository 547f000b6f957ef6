import CnotRouting.Proofs.CutTexts
import CnotRouting.Proofs.WrittenRoutes

/-!
# Cut routes

A reader refuses what was written for it if it is cut anywhere. The steps of a route end at the word
`cost`, which no part of another word can stand for, so steps that are cut have no end. The marker and
the signs of a route are compared as a whole, and a number that lost digits is not the cost of the
route.
-/

namespace CnotRouting

/-- Whether a reader fails wherever what was written for it is cut. -/
def Refuses {ι ω α : Type} (IsPart : ω → ω → Prop) (shown : ι → ω)
    (read : List ι → Except FormatError α) (written : List ω) : Prop :=
  ∀ items a, IsCut IsPart written (items.map shown) → read items ≠ .ok a

/-- A reader that succeeds on a cut text has read what was written for it. The cut is behind it. -/
theorem Refuses.isCut_rest {ι ω α : Type} {IsPart : ω → ω → Prop} {shown : ι → ω}
    {read : List ι → Except FormatError (α × List ι)} {written more : List ω} {items rest : List ι}
    {a b : α} (refuses : Refuses IsPart shown read written) (reads : Reads shown read written a)
    (cut : IsCut IsPart (written ++ more) (items.map shown)) (h : read items = .ok (b, rest)) :
    b = a ∧ IsCut IsPart more (rest.map shown) := by
  rcases cut.of_append with first | ⟨later, hitems, cut⟩
  · exact absurd h (refuses _ _ first)
  · obtain ⟨rest', hread, hrest⟩ := reads _ _ hitems
    rw [h] at hread
    cases hread
    exact ⟨rfl, hrest ▸ cut⟩

/-! ### Steps -/

theorem opensCost_iff {word : String} : opensCost word = true ↔ "cost".toList <+: word.toList :=
  List.isPrefixOf_iff_prefix

theorem Step.opensCost_of_mem_words {s : Step} {word : String} (h : word ∈ s.words) :
    opensCost word = false := by
  rcases List.mem_cons.1 h with rfl | h
  · exact opensCost_token s.kind
  · obtain ⟨q, -, rfl⟩ := List.mem_map.1 h
    rw [Bool.eq_false_iff]
    intro opens
    have letter : 'c' ∈ q.repr.toList := (opensCost_iff.1 opens).subset (by decide)
    rw [Nat.toList_repr] at letter
    have digit := Nat.isDigit_of_mem_toDigits (by decide) (by decide) letter
    revert digit
    decide

theorem exists_opensCost_of_readSteps {g : CouplingGraph} {last : Nat} {tokens rest : List Token}
    {r : Route} (h : readSteps last g tokens = .ok (r, rest)) :
    ∃ t ∈ tokens, opensCost t.word = true := by
  fun_induction readSteps last g tokens generalizing r rest with
  | case1 => cases h
  | case2 t tokens opens => exact ⟨t, List.mem_cons_self, opens⟩
  | case3 t tokens _ unknown => cases h
  | case4 t tokens _ kind _ ih =>
    obtain ⟨operands, -, h⟩ := bind_eq_ok_iff.1 h
    obtain ⟨⟨⟩, -, h⟩ := bind_eq_ok_iff.1 h
    obtain ⟨⟨more, rest'⟩, hmore, -⟩ := bind_eq_ok_iff.1 h
    obtain ⟨t', ht', opens⟩ := ih hmore
    exact ⟨t', List.mem_cons_of_mem t (List.mem_of_mem_drop ht'), opens⟩

/-- The steps of a cut text have no end. -/
theorem refuses_steps (g : CouplingGraph) (last : Nat) (r : Route) :
    Refuses IsWordPart Token.word (readSteps last g) (r.flatMap Step.words ++ ["cost"]) := by
  rintro tokens ⟨route, rest⟩ cut h
  obtain ⟨t, ht, opens⟩ := exists_opensCost_of_readSteps h
  have steps : ∀ word ∈ r.flatMap Step.words, opensCost word ≠ true := by
    intro word hword
    obtain ⟨s, -, hs⟩ := List.mem_flatMap.1 hword
    simp [s.opensCost_of_mem_words hs]
  -- the word `cost` is the last one that was written, so what opens the cost is a part of some word
  rcases cut.exists_of_mem (List.mem_map_of_mem ht) with kept | ⟨word, hword, part⟩
  · rw [List.dropLast_concat] at kept
    exact steps _ kept opens
  · have start := opensCost_iff.1 opens
    rcases List.mem_append.1 hword with hword | hword
    · exact steps word hword (opensCost_iff.2 (start.trans part.starts))
    · obtain rfl := List.mem_singleton.1 hword
      have same := part.starts.eq_of_length_le start.length_le
      exact part.ne (String.toList_inj.1 same)

/-! ### Routes -/

theorem isCut_of_takeToken {last : Nat} {needed : Expectation} {tokens rest : List Token}
    {t : Token} {word : String} {more : List String}
    (cut : IsCut IsWordPart (word :: more) (tokens.map Token.word))
    (h : takeToken last needed tokens = .ok (t, rest)) :
    (t.word = word ∧ IsCut IsWordPart more (rest.map Token.word)) ∨ IsWordPart word t.word := by
  cases tokens with
  | nil => cases h
  | cons t' tokens =>
    cases h
    exact cut.of_cons.imp_right And.left

theorem isCut_of_takeKeyword {last : Nat} {tokens rest : List Token} {word : String}
    {more : List String} (cut : IsCut IsWordPart (word :: more) (tokens.map Token.word))
    (h : takeKeyword last word tokens = .ok rest) : IsCut IsWordPart more (rest.map Token.word) := by
  obtain ⟨⟨t, rest'⟩, htake, h⟩ := bind_eq_ok_iff.1 h
  obtain ⟨same, h⟩ := require_bind_eq_ok_iff.1 h
  cases h
  exact ((isCut_of_takeToken cut htake).resolve_right fun part => part.ne same).2

theorem isCut_of_takeNumeral {last line n m : Nat} {role : Numeral} {tokens rest : List Token}
    {more : List String} (bound : n < wordBound)
    (cut : IsCut IsWordPart (n.repr :: more) (tokens.map Token.word))
    (h : takeNumeral last role tokens = .ok (line, m, rest)) :
    (m = n ∧ IsCut IsWordPart more (rest.map Token.word)) ∨ m < n := by
  obtain ⟨⟨t, rest'⟩, htake, h⟩ := bind_eq_ok_iff.1 h
  obtain ⟨m', hm', h⟩ := bind_eq_ok_iff.1 h
  cases h
  rcases isCut_of_takeToken cut htake with ⟨same, cut⟩ | part
  · rw [numeral_written same bound] at hm'
    cases hm'
    exact .inl ⟨rfl, cut⟩
  · obtain ⟨k, hk, -, less⟩ := part.exists_lt
    rw [numeral_written hk (Nat.lt_trans less bound)] at hm'
    cases hm'
    exact .inr less

theorem refuses_route {g : CouplingGraph} (hsize : g.size ≤ wordBound) (last : Nat) {v w : Nat}
    {r : Route} (serves : r.Serves g v w) (bound : r.cost < wordBound) :
    Refuses IsWordPart Token.word (readRoute last g v w r.cost) (routeLines (v, w, r)).flatten := by
  rintro tokens ⟨route, rest⟩ cut h
  have cut : IsCut IsWordPart (routeMarker v w :: "=>" ::
      (r.flatMap Step.words ++ ["cost"] ++ "=" :: [r.cost.repr])) (tokens.map Token.word) := by
    simpa [routeLines, Route.lines, List.flatMap] using cut
  obtain ⟨⟨t, afterMarker⟩, hmarker, h⟩ := bind_eq_ok_iff.1 h
  obtain ⟨marker, h⟩ := require_bind_eq_ok_iff.1 h
  have cut := ((isCut_of_takeToken cut hmarker).resolve_right fun part => part.ne marker).2
  obtain ⟨afterArrow, harrow, h⟩ := bind_eq_ok_iff.1 h
  have cut := isCut_of_takeKeyword cut harrow
  obtain ⟨⟨route', afterSteps⟩, hsteps, h⟩ := bind_eq_ok_iff.1 h
  obtain ⟨-, cut⟩ :=
    (refuses_steps g last r).isCut_rest (reads_steps hsize last serves.native) cut hsteps
  obtain ⟨afterEquals, hequals, h⟩ := bind_eq_ok_iff.1 h
  have cut := isCut_of_takeKeyword cut hequals
  obtain ⟨⟨line, cost, rest'⟩, hcost, h⟩ := bind_eq_ok_iff.1 h
  obtain ⟨expected, -⟩ := require_bind_eq_ok_iff.1 h
  -- nothing follows the cost, so the cut can only be inside it
  rcases isCut_of_takeNumeral bound cut hcost with ⟨-, cut⟩ | less
  · cases cut
  · exact absurd expected (Nat.ne_of_lt less)

theorem refuses_routes {g : CouplingGraph} (hsize : g.size ≤ wordBound) (last : Nat)
    {entries : List ((Nat × Nat) × Route)} (h : ∀ e ∈ entries, IsEntry g e.1 e.2)
    (bound : ∀ e ∈ entries, e.2.cost < wordBound) :
    Refuses IsWordPart Token.word (readRoutes last g (entries.map fun e => (e.1, e.2.cost)))
      ((entries.filterMap writtenRoute?).flatMap routeLines).flatten := by
  induction entries with
  | nil =>
    intro tokens result cut
    cases cut
  | cons entry entries ih =>
    obtain ⟨⟨v, w⟩, r⟩ := entry
    obtain ⟨hentry, htail⟩ := List.forall_mem_cons.1 h
    obtain ⟨hbound, htails⟩ := List.forall_mem_cons.1 bound
    intro tokens result cut hread
    by_cases hvw : v = w
    · rw [List.filterMap_cons_none (by simp [writtenRoute?, hvw])] at cut
      rw [List.map_cons, readRoutes, if_pos hvw] at hread
      obtain ⟨⟨more, rest⟩, hmore, -⟩ := bind_eq_ok_iff.1 hread
      exact ih htail htails _ _ cut hmore
    · have serves : r.Serves g v w := by simpa [IsEntry, hvw] using hentry
      rw [List.filterMap_cons_some (b := (v, w, r)) (by simp [writtenRoute?, hvw]),
        List.flatMap_cons, List.flatten_append] at cut
      rw [List.map_cons, readRoutes, if_neg hvw] at hread
      obtain ⟨⟨route, afterRoute⟩, hroute, hread⟩ := bind_eq_ok_iff.1 hread
      obtain ⟨⟨more, rest⟩, hmore, -⟩ := bind_eq_ok_iff.1 hread
      obtain ⟨-, cut⟩ := (refuses_route hsize last serves hbound).isCut_rest
        (reads_route hsize last serves hbound) cut hroute
      exact ih htail htails _ _ cut hmore

end CnotRouting
