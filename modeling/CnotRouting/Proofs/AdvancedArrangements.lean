import CnotRouting.Proofs.NextArrangements
import Mathlib.Order.Bounds.Defs

/-!
# Arrangements advanced in place

A list is advanced in its place. To the next order it is advanced at the last number that is less
than the number after it: that number changes places with the last greater one, and all after it is
turned round. To the next set it is advanced at the last number that has room below the bound: that
number grows by one, and those after it follow it closely. A list without such a number stays as it
is. What is reached in this way is the next order and the next set.
-/

namespace CnotRouting

/-! ### Steps in place -/

/-- The last of `count` numbers from `first` on that passes the test. -/
def lastFrom? (p : Nat → Bool) (first count : Nat) : Option Nat :=
  (List.range' first count).reverse.find? p

/-- The last position whose number is less than the number after it. -/
def ascent? (l : List Nat) : Option Nat :=
  lastFrom? (fun i => l.getD i 0 < l.getD (i + 1) 0) 0 (l.length - 1)

/-- The list with the numbers at two positions exchanged. -/
def swapAt (l : List Nat) (i j : Nat) : List Nat := (l.set i (l.getD j 0)).set j (l.getD i 0)

/-- Exchanges the number at position `i` with the last greater one after it, and turns round all
that comes after position `i`. -/
def turnAt? (l : List Nat) (i : Nat) : Option (List Nat) :=
  (lastFrom? (fun j => l.getD i 0 < l.getD j 0) (i + 1) (l.length - (i + 1))).map fun j =>
    (swapAt l i j).take (i + 1) ++ ((swapAt l i j).drop (i + 1)).reverse

/-- Whether there is a next list, with that list or, if there is none, the present one. -/
def advanced (next? : Option (List Nat)) (l : List Nat) : Bool × List Nat :=
  (next?.isSome, next?.getD l)

/-- Advances a list to its next order. -/
def advanceOrder (l : List Nat) : Bool × List Nat := advanced ((ascent? l).bind (turnAt? l)) l

/-- The last position of a set below `n` whose number has room to grow. -/
def room? (n : Nat) (l : List Nat) : Option Nat :=
  lastFrom? (fun i => l.getD i 0 < n - l.length + i) 0 l.length

/-- Lets the number at position `i` grow by one, and every later one follow the one before it. -/
def raiseAt (l : List Nat) (i : Nat) : List Nat :=
  (List.range' (i + 1) (l.length - (i + 1))).foldl (fun l j => l.set j (l.getD (j - 1) 0 + 1))
    (l.set i (l.getD i 0 + 1))

/-- Advances a set below `n` to the next one. -/
def advanceSet (n : Nat) (l : List Nat) : Bool × List Nat :=
  advanced ((room? n l).map (raiseAt l)) l

/-! ### The last number that passes a test -/

theorem lastFrom?_succ (p : Nat → Bool) (first count : Nat) :
    lastFrom? p first (count + 1) =
      (lastFrom? p (first + 1) count).or (if p first then some first else none) := by
  simp only [lastFrom?, List.range'_succ, List.reverse_cons, List.find?_append]
  cases h : p first <;> simp [h]

theorem lastFrom?_succ_first (p : Nat → Bool) (first count : Nat) :
    lastFrom? p (first + 1) count = (lastFrom? (fun i => p (i + 1)) first count).map (· + 1) := by
  rw [lastFrom?, List.range'_succ_left, ← List.map_reverse, List.find?_map]
  rfl

theorem lastFrom?_eq_none_iff {p : Nat → Bool} {first count : Nat} :
    lastFrom? p first count = none ↔ ∀ i, first ≤ i → i < first + count → p i = false := by
  simp [lastFrom?, List.find?_eq_none]

theorem of_lastFrom?_eq_some {p : Nat → Bool} {first count i : Nat}
    (h : lastFrom? p first count = some i) : p i = true ∧ first ≤ i ∧ i < first + count := by
  have member := List.mem_of_find?_eq_some h
  rw [List.mem_reverse, List.mem_range'_1] at member
  exact ⟨List.find?_some h, member⟩

/-! ### Orders -/

theorem ascent?_cons_cons (x y : Nat) (l : List Nat) :
    ascent? (x :: y :: l) =
      ((ascent? (y :: l)).map (· + 1)).or (if x < y then some 0 else none) := by
  simp only [ascent?, List.length_cons, Nat.add_sub_cancel]
  rw [lastFrom?_succ, lastFrom?_succ_first]
  simp

theorem turnAt?_cons_succ (x : Nat) (l : List Nat) (i : Nat) :
    turnAt? (x :: l) (i + 1) = (turnAt? l i).map (x :: ·) := by
  have length : (x :: l).length - (i + 1 + 1) = l.length - (i + 1) := by simp
  simp only [turnAt?, length, lastFrom?_succ_first (fun j => decide (_ < (x :: l).getD j 0)),
    Option.map_map]
  rfl

/-- After an ascent there is a greater number. -/
theorem turnAt?_ne_none {l : List Nat} {i : Nat} (h : ascent? l = some i) : turnAt? l i ≠ none := by
  obtain ⟨less, -, hi⟩ := of_lastFrom?_eq_some h
  intro none
  rw [turnAt?, Option.map_eq_none_iff, lastFrom?_eq_none_iff] at none
  have := none (i + 1) (Nat.le_refl _) (by omega)
  simp_all

theorem exchange?_concat (x y : Nat) (l : List Nat) :
    exchange? x (l ++ [y]) =
      ((exchange? x l).map fun r => (r.1, r.2 ++ [y])).or
        (if x < y then some (y, l ++ [x]) else none) := by
  induction l with
  | nil => by_cases h : x < y <;> simp [exchange?, h]
  | cons z l ih =>
    rw [List.cons_append, exchange?, exchange?]
    by_cases h : x < z
    · simp [h]
    · rw [if_neg h, if_neg h, ih]
      cases exchange? x l with
      | some r => rfl
      | none => by_cases hxy : x < y <;> simp [hxy]

/-- The first greater number from the end is the last one. -/
theorem exchange?_reverse (x : Nat) (l : List Nat) :
    exchange? x l.reverse =
      (lastFrom? (fun j => x < l.getD j 0) 0 l.length).map fun j =>
        (l.getD j 0, (l.set j x).reverse) := by
  induction l with
  | nil => rfl
  | cons y l ih =>
    rw [List.reverse_cons, exchange?_concat, ih, List.length_cons, lastFrom?_succ,
      lastFrom?_succ_first]
    simp only [List.getD_cons_succ, List.getD_cons_zero]
    cases lastFrom? (fun j => decide (x < l.getD j 0)) 0 l.length with
    | some j => simp
    | none => by_cases h : x < y <;> simp [h]

theorem turnAt?_cons_zero (x : Nat) (l : List Nat) :
    turnAt? (x :: l) 0 = (exchange? x l.reverse).map fun (y, tail) => y :: tail := by
  rw [exchange?_reverse, turnAt?, lastFrom?_succ_first, Option.map_map, Option.map_map]
  rfl

/-- The order that is reached in place is the next one. -/
theorem turnAt?_ascent? (l : List Nat) : (ascent? l).bind (turnAt? l) = nextPermutation? l := by
  induction l with
  | nil => rfl
  | cons x rest ih =>
    cases rest with
    | nil => rfl
    | cons y t =>
      rw [ascent?_cons_cons]
      cases hascent : ascent? (y :: t) with
      | some i =>
        rw [hascent, Option.bind_some] at ih
        obtain ⟨next, hnext⟩ := Option.ne_none_iff_exists'.1 (turnAt?_ne_none hascent)
        rw [nextPermutation?, ← ih, hnext]
        simp [turnAt?_cons_succ, hnext]
      | none =>
        rw [hascent, Option.bind_none] at ih
        rw [nextPermutation?_cons_of_none ih.symm, ← turnAt?_cons_zero]
        by_cases less : x < y
        · simp [less]
        · -- the tail decreases from `y` on, so nothing in it is greater than `x`
          have decreasing := decreasing_of_nextPermutation?_eq_none ih.symm
          have none : exchange? x (y :: t).reverse = none := by
            rw [exchange?_eq_none_iff]
            intro z hz
            rcases List.mem_cons.1 (List.mem_reverse.1 hz) with rfl | hz
            · omega
            · have := (List.pairwise_cons.1 decreasing).1 z hz
              omega
          rw [turnAt?_cons_zero, none]
          simp [less]

/-! ### Sets -/

/-- The number at position `i` and `count` numbers after it are raised one after another. -/
theorem foldl_raise (l : List Nat) {i count : Nat} (h : i + count < l.length) :
    (List.range' (i + 1) count).foldl (fun l j => l.set j (l.getD (j - 1) 0 + 1))
        (l.set i (l.getD i 0 + 1)) =
      l.take i ++ List.range' (l.getD i 0 + 1) (count + 1) ++ l.drop (i + 1 + count) := by
  induction count with
  | zero =>
    rw [List.range'_zero, List.foldl_nil, List.set_eq_take_append_cons_drop,
      if_pos (show i < l.length by omega)]
    simp
  | succ count ih =>
    have length : (l.take i ++ List.range' (l.getD i 0 + 1) (count + 1)).length = i + 1 + count := by
      rw [List.length_append, List.length_take, List.length_range']
      omega
    have before : (l.take i ++ List.range' (l.getD i 0 + 1) (count + 1) ++
        l.drop (i + 1 + count)).getD (i + 1 + count - 1) 0 = l.getD i 0 + 1 + count := by
      have place : i + 1 + count - 1 - (l.take i).length = count := by
        rw [List.length_take]
        omega
      have beyond : (l.take i).length ≤ i + 1 + count - 1 := by
        rw [List.length_take]
        omega
      rw [List.append_assoc, List.getD_eq_getElem?_getD, List.getElem?_append_right beyond, place,
        List.getElem?_append_left (by simp)]
      simp
    rw [List.range'_1_concat, List.foldl_append, ih (by omega), List.foldl_cons, List.foldl_nil,
      before, List.set_append_right _ _ (by omega), length, Nat.sub_self,
      List.drop_eq_getElem_cons (show i + 1 + count < l.length by omega), List.set_cons_zero,
      List.range'_1_concat (n := count + 1)]
    simp [Nat.add_assoc]

theorem raiseAt_eq (l : List Nat) {i : Nat} (h : i < l.length) :
    raiseAt l i = l.take i ++ List.range' (l.getD i 0 + 1) (l.length - i) := by
  rw [raiseAt, foldl_raise l (by omega), List.drop_of_length_le (by omega), List.append_nil]
  congr 2
  omega

/-- The set that is reached in place is the next one. -/
theorem raiseAt_room? {n : Nat} {l : List Nat} (h : l.length ≤ n) :
    (room? n l).map (raiseAt l) = nextCombination? n l := by
  induction l with
  | nil => rfl
  | cons x rest ih =>
    have length : (x :: rest).length = rest.length + 1 := rfl
    have shift : room? n (x :: rest) =
        ((room? n rest).map (· + 1)).or (if x + rest.length + 1 < n then some 0 else none) := by
      have limit : ∀ i, n - (rest.length + 1) + (i + 1) = n - rest.length + i := by
        intro i
        omega
      have first : (x < n - (rest.length + 1)) = (x + rest.length + 1 < n) := by
        rw [eq_iff_iff]
        omega
      simp only [room?, length, lastFrom?_succ, lastFrom?_succ_first, List.getD_cons_succ,
        List.getD_cons_zero, limit, first, decide_eq_true_eq, Nat.add_zero]
    rw [shift, nextCombination?, ← ih (by omega)]
    cases hroom : room? n rest with
    | some i =>
      have hi : i < rest.length := by simpa using (of_lastFrom?_eq_some hroom).2.2
      simp [raiseAt_eq, hi]
    | none =>
      by_cases room : x + rest.length + 1 < n
      · simp [room, raiseAt_eq, List.range'_succ]
      · simp [room]

/-! ### What is reached -/

/-- Whether a list was advanced rightly through `S`: to the least list after it, or, if none comes
after it, not at all. -/
structure IsAdvanced (S : Set (List Nat)) (l : List Nat) (result : Bool × List Nat) : Prop where
  moves_iff : result.1 = true ↔ ∃ p ∈ S, l < p
  least : result.1 = true → IsLeast {p | p ∈ S ∧ l < p} result.2
  unchanged : result.1 = false → result.2 = l

theorem IsNextIn.isAdvanced {S : Set (List Nat)} {l : List Nat} {next? : Option (List Nat)}
    (h : IsNextIn (· < ·) S l next?) : IsAdvanced S l (advanced next? l) := by
  cases next? with
  | none =>
    refine ⟨?_, nofun, fun _ => rfl⟩
    simpa [advanced, IsNextIn] using h
  | some next =>
    obtain ⟨⟨member, later⟩, first⟩ := h
    refine ⟨iff_of_true rfl ⟨next, member, later⟩, fun _ => ⟨⟨member, later⟩, ?_⟩, nofun⟩
    rintro p ⟨hp, hlt⟩
    rcases first p hp hlt with rfl | less
    · exact le_refl _
    · exact le_of_lt less

/-- A list is advanced to the least rearrangement that comes lexicographically after it, and a set
of `k` numbers below `n` to the set of `k` numbers below `n` that comes next. Where nothing comes
after it, and only there, it stays as it is and is reported as the last one. The lists and sets that
the enumeration of placements passes through are those. -/
theorem advances_to_next (l : List Nat) {n k : Nat} {set : List Nat}
    (hset : set ∈ combinations 0 n k) :
    (advanceOrder l = advanced (nextPermutation? l) l ∧
        IsAdvanced {p | p.Perm l} l (advanceOrder l)) ∧
      advanceSet n set = advanced (nextCombination? n set) set ∧
        IsAdvanced (combinations 0 n k) set (advanceSet n set) := by
  have order : advanceOrder l = advanced (nextPermutation? l) l := by
    rw [advanceOrder, turnAt?_ascent?]
  have room : set.length ≤ n := by simpa using hset.2.add_length_le (Nat.zero_le n)
  have step : advanceSet n set = advanced (nextCombination? n set) set := by
    rw [advanceSet, raiseAt_room? room]
  refine ⟨⟨order, ?_⟩, step, ?_⟩
  · rw [order]
    exact (nextPermutation?_isNext l).isAdvanced
  · rw [step]
    exact (nextCombination?_isNext hset).isAdvanced

/-- Of the two greater numbers the last one gives way, and the tail starts anew. The second number of
the set is the last that has room. -/
theorem advances_to_next_repeated :
    [0, 2, 4] ∈ combinations 0 5 3 ∧ IsAdvanced {p | p.Perm [2, 3, 3, 1]} [2, 3, 3, 1]
        (true, [3, 1, 2, 3]) ∧ IsAdvanced (combinations 0 5 3) [0, 2, 4] (true, [0, 3, 4]) := by
  have member : [0, 2, 4] ∈ combinations 0 5 3 := ⟨rfl, by decide, by decide⟩
  obtain ⟨⟨-, order⟩, -, step⟩ := advances_to_next [2, 3, 3, 1] member
  exact ⟨member, order, step⟩

end CnotRouting
