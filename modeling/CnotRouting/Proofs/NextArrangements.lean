import CnotRouting.Proofs.Successors
import Mathlib.Data.List.Lex
import Mathlib.Data.Set.Basic

/-!
# Next orders and next sets

The next order of a list is the least rearrangement that comes lexicographically after it, and the
last order is the decreasing one. The next set of some size below a bound is the least such set,
written in increasing order, that comes after the present one.
-/

namespace CnotRouting

theorem cons_eq_or_lt {l p : List Nat} (x : Nat) (h : p = l ∨ l < p) :
    x :: p = x :: l ∨ x :: l < x :: p := by
  rcases h with rfl | later
  · exact .inl rfl
  · exact .inr (List.cons_lt_cons_iff.2 (.inr ⟨rfl, later⟩))

/-- If the tail has a next list, the whole has the same one after the same head. -/
theorem IsNextIn.cons {S T : Set (List Nat)} {x : Nat} {rest next : List Nat}
    (h : IsNextIn (· < ·) S rest (some next)) (hnext : x :: next ∈ T)
    (tails : ∀ q, x :: q ∈ T → q ∈ S) : IsNextIn (· < ·) T (x :: rest) (some (x :: next)) := by
  obtain ⟨⟨-, later⟩, first⟩ := h
  refine ⟨⟨hnext, List.cons_lt_cons_iff.2 (.inr ⟨rfl, later⟩)⟩, ?_⟩
  intro p hp hlt
  cases p with
  | nil => exact absurd hlt (List.not_lt_nil _)
  | cons y q =>
    rcases List.cons_lt_cons_iff.1 hlt with less | ⟨rfl, hq⟩
    · exact .inr (List.cons_lt_cons_iff.2 (.inl less))
    · exact cons_eq_or_lt x (first q (tails q hp) hq)

/-! ### Orders of a list -/

theorem exchange?_perm {x y : Nat} {l rest : List Nat} (h : exchange? x l = some (y, rest)) :
    (y :: rest).Perm (x :: l) := by
  induction l generalizing y rest with
  | nil => cases h
  | cons z l ih =>
    simp only [exchange?] at h
    split at h
    · cases h
      exact .swap x z l
    · obtain ⟨⟨y', rest'⟩, hexchange, heq⟩ := Option.map_eq_some_iff.1 h
      cases heq
      have inner : (z :: y' :: rest').Perm (z :: x :: l) := (ih hexchange).cons z
      exact (List.Perm.swap z y' rest').trans (inner.trans (.swap x z l))

theorem exchange?_eq_none_iff {x : Nat} {l : List Nat} :
    exchange? x l = none ↔ ∀ y ∈ l, y ≤ x := by
  induction l with
  | nil => simp [exchange?]
  | cons z l ih =>
    rw [exchange?, List.forall_mem_cons]
    split
    · rename_i hxz
      simp [hxz]
    · rename_i hxz
      simp [ih, Nat.not_lt.1 hxz]

/-- In an increasing list the least greater number gives way, and the list stays increasing. -/
theorem exchange?_increasing {x y : Nat} {l rest : List Nat} (hl : l.Pairwise (· ≤ ·))
    (h : exchange? x l = some (y, rest)) :
    x < y ∧ (∀ z ∈ l, x < z → y ≤ z) ∧ rest.Pairwise (· ≤ ·) := by
  induction l generalizing y rest with
  | nil => cases h
  | cons a l ih =>
    obtain ⟨ha, hl⟩ := List.pairwise_cons.1 hl
    simp only [exchange?] at h
    split at h
    · rename_i hxa
      cases h
      refine ⟨hxa, List.forall_mem_cons.2 ⟨fun _ => Nat.le_refl _, fun z hz _ => ha z hz⟩, ?_⟩
      exact List.pairwise_cons.2 ⟨fun z hz => Nat.le_trans (Nat.le_of_lt hxa) (ha z hz), hl⟩
    · rename_i hxa
      obtain ⟨⟨y', rest'⟩, hexchange, heq⟩ := Option.map_eq_some_iff.1 h
      cases heq
      obtain ⟨hxy, least, hrest⟩ := ih hl hexchange
      refine ⟨hxy, List.forall_mem_cons.2 ⟨fun hxa' => absurd hxa' hxa, least⟩, ?_⟩
      refine List.pairwise_cons.2 ⟨fun z hz => ?_, hrest⟩
      rcases List.mem_cons.1 ((exchange?_perm hexchange).mem_iff.1 (List.mem_cons_of_mem _ hz)) with
        rfl | hz
      · exact Nat.not_lt.1 hxa
      · exact ha z hz

theorem nextPermutation?_cons_of_none {x : Nat} {rest : List Nat}
    (h : nextPermutation? rest = none) : nextPermutation? (x :: rest) =
      (exchange? x rest.reverse).map fun (y, tail) => y :: tail := by
  rw [nextPermutation?, h]

/-- A list without a next order is decreasing. -/
theorem decreasing_of_nextPermutation?_eq_none {l : List Nat} (h : nextPermutation? l = none) :
    l.Pairwise (· ≥ ·) := by
  induction l with
  | nil => exact .nil
  | cons x rest ih =>
    cases hrest : nextPermutation? rest with
    | some next => simp [nextPermutation?, hrest] at h
    | none =>
      rw [nextPermutation?_cons_of_none hrest, Option.map_eq_none_iff, exchange?_eq_none_iff] at h
      exact List.pairwise_cons.2 ⟨fun y hy => h y (List.mem_reverse.2 hy), ih hrest⟩

/-- The increasing order is the first. -/
theorem increasing_first {l p : List Nat} (hl : l.Pairwise (· ≤ ·)) (h : p.Perm l) :
    p = l ∨ l < p := by
  induction l generalizing p with
  | nil => exact .inl h.eq_nil
  | cons x rest ih =>
    obtain ⟨hx, hrest⟩ := List.pairwise_cons.1 hl
    cases p with
    | nil => exact absurd h.symm.eq_nil (by simp)
    | cons y q =>
      rcases List.mem_cons.1 (h.mem_iff.1 List.mem_cons_self) with rfl | hy
      · exact cons_eq_or_lt y (ih hrest h.cons_inv)
      · rcases (hx y hy).lt_or_eq with less | rfl
        · exact .inr (List.cons_lt_cons_iff.2 (.inl less))
        · exact cons_eq_or_lt x (ih hrest h.cons_inv)

/-- The next order is the least rearrangement that comes after the list. -/
theorem nextPermutation?_isNext (l : List Nat) :
    IsNextIn (· < ·) {p : List Nat | p.Perm l} l (nextPermutation? l) := by
  induction l with
  | nil =>
    intro p hp
    rw [List.Perm.eq_nil hp]
    exact List.not_lt_nil []
  | cons x rest ih =>
    cases hrest : nextPermutation? rest with
    | some next =>
      rw [hrest] at ih
      rw [nextPermutation?, hrest]
      exact ih.cons (List.Perm.cons x ih.1.1) fun q hq => List.Perm.cons_inv hq
    | none =>
      rw [hrest] at ih
      -- the tail is its own last order, so a later rearrangement begins with a greater number
      have later : ∀ y q, (y :: q).Perm (x :: rest) → x :: rest < y :: q → x < y ∧ y ∈ rest := by
        intro y q hp hlt
        rcases List.cons_lt_cons_iff.1 hlt with less | ⟨rfl, hq⟩
        · refine ⟨less, (List.mem_cons.1 (hp.mem_iff.1 List.mem_cons_self)).resolve_left ?_⟩
          omega
        · exact absurd hq (ih q hp.cons_inv)
      rw [nextPermutation?_cons_of_none hrest]
      cases hexchange : exchange? x rest.reverse with
      | none =>
        rw [exchange?_eq_none_iff] at hexchange
        intro p hp hlt
        cases p with
        | nil => exact List.not_lt_nil _ hlt
        | cons y q =>
          obtain ⟨less, hy⟩ := later y q hp hlt
          have := hexchange y (List.mem_reverse.2 hy)
          omega
      | some exchanged =>
        obtain ⟨y, tail⟩ := exchanged
        have increasing : rest.reverse.Pairwise (· ≤ ·) :=
          List.pairwise_reverse.2 (decreasing_of_nextPermutation?_eq_none hrest)
        obtain ⟨hxy, least, htail⟩ := exchange?_increasing increasing hexchange
        have perm : (y :: tail).Perm (x :: rest) :=
          (exchange?_perm hexchange).trans ((List.reverse_perm rest).cons x)
        refine ⟨⟨perm, List.cons_lt_cons_iff.2 (.inl hxy)⟩, ?_⟩
        intro p hp hlt
        cases p with
        | nil => exact absurd hlt (List.not_lt_nil _)
        | cons z q =>
          obtain ⟨hxz, hz⟩ := later z q hp hlt
          rcases (least z (List.mem_reverse.2 hz) hxz).lt_or_eq with less | rfl
          · exact .inr (List.cons_lt_cons_iff.2 (.inl less))
          · have same : q.Perm tail := (List.Perm.trans hp perm.symm).cons_inv
            exact cons_eq_or_lt y (increasing_first htail same)

/-! ### Sets below a bound -/

/-- A set of numbers from `lo` on and below `n`, in increasing order. -/
structure IsCombination (lo n : Nat) (l : List Nat) : Prop where
  increasing : l.Pairwise (· < ·)
  bounds : ∀ a ∈ l, lo ≤ a ∧ a < n

theorem isCombination_cons {lo n x : Nat} {l : List Nat} :
    IsCombination lo n (x :: l) ↔ (lo ≤ x ∧ x < n) ∧ IsCombination (x + 1) n l := by
  constructor
  · rintro ⟨increasing, bounds⟩
    obtain ⟨hx, hl⟩ := List.pairwise_cons.1 increasing
    obtain ⟨here, tail⟩ := List.forall_mem_cons.1 bounds
    exact ⟨here, hl, fun a ha => ⟨hx a ha, (tail a ha).2⟩⟩
  · rintro ⟨here, increasing, bounds⟩
    refine ⟨List.pairwise_cons.2 ⟨fun a ha => (bounds a ha).1, increasing⟩, ?_⟩
    intro a ha
    rcases List.mem_cons.1 ha with rfl | ha
    · exact here
    · have := bounds a ha
      omega

theorem isCombination_range' {lo n count : Nat} (h : lo + count ≤ n) :
    IsCombination lo n (List.range' lo count) := by
  refine ⟨List.pairwise_lt_range', ?_⟩
  intro a ha
  have := List.mem_range'_1.1 ha
  omega

/-- A set has room above its lower bound. -/
theorem IsCombination.add_length_le {lo n : Nat} {l : List Nat} (h : IsCombination lo n l)
    (hlo : lo ≤ n) : lo + l.length ≤ n := by
  induction l generalizing lo with
  | nil => exact hlo
  | cons x rest ih =>
    obtain ⟨hx, hrest⟩ := isCombination_cons.1 h
    have := ih hrest (by omega)
    rw [List.length_cons]
    omega

/-- Consecutive numbers are the first set. -/
theorem range'_first {lo n : Nat} {l : List Nat} (h : IsCombination lo n l) :
    l = List.range' lo l.length ∨ List.range' lo l.length < l := by
  induction l generalizing lo with
  | nil => exact .inl rfl
  | cons x rest ih =>
    obtain ⟨hx, hrest⟩ := isCombination_cons.1 h
    rw [List.length_cons, List.range'_succ]
    rcases hx.1.lt_or_eq with less | rfl
    · exact .inr (List.cons_lt_cons_iff.2 (.inl less))
    · exact cons_eq_or_lt lo (ih hrest)

/-- The sets of `k` numbers from `lo` on and below `n`. -/
def combinations (lo n k : Nat) : Set (List Nat) := {l | l.length = k ∧ IsCombination lo n l}

theorem cons_mem_combinations {lo n k x : Nat} {l : List Nat} :
    x :: l ∈ combinations lo n (k + 1) ↔ (lo ≤ x ∧ x < n) ∧ l ∈ combinations (x + 1) n k := by
  simp only [combinations, Set.mem_ofPred_eq, List.length_cons, isCombination_cons]
  constructor
  · rintro ⟨length, here, hl⟩
    exact ⟨here, by omega, hl⟩
  · rintro ⟨here, length, hl⟩
    exact ⟨by omega, here, hl⟩

/-- The next set is the least one that comes after the present one. -/
theorem nextCombination?_isNext {lo n k : Nat} {l : List Nat} (hl : l ∈ combinations lo n k) :
    IsNextIn (· < ·) (combinations lo n k) l (nextCombination? n l) := by
  induction l generalizing lo k with
  | nil =>
    rintro p ⟨length, -⟩
    have : p.length = 0 := length.trans hl.1.symm
    rw [List.length_eq_zero_iff.1 this]
    exact List.not_lt_nil []
  | cons x rest ih =>
    obtain ⟨k, rfl⟩ : ∃ k', k = k' + 1 := ⟨rest.length, hl.1.symm⟩
    obtain ⟨hx, hrest⟩ := cons_mem_combinations.1 hl
    have following := ih hrest
    rw [nextCombination?]
    cases hnext : nextCombination? n rest with
    | some next =>
      rw [hnext] at following
      exact following.cons (cons_mem_combinations.2 ⟨hx, following.1.1⟩) fun q hq =>
        (cons_mem_combinations.1 hq).2
    | none =>
      rw [hnext] at following
      -- the tail is the last one, so a later set begins with a greater number
      have later : ∀ y q, y :: q ∈ combinations lo n (k + 1) → x :: rest < y :: q → x < y := by
        intro y q hp hlt
        rcases List.cons_lt_cons_iff.1 hlt with less | ⟨rfl, hq⟩
        · exact less
        · exact absurd hq (following q (cons_mem_combinations.1 hp).2)
      have length : rest.length = k := hrest.1
      simp only
      split
      · rename_i room
        have tail : IsCombination (x + 1 + 1) n (List.range' (x + 2) rest.length) :=
          isCombination_range' (by omega)
        refine ⟨⟨cons_mem_combinations.2 ⟨by omega, by simp [length], tail⟩,
          List.cons_lt_cons_iff.2 (.inl (by omega))⟩, ?_⟩
        intro p hp hlt
        cases p with
        | nil => exact absurd hlt (List.not_lt_nil _)
        | cons y q =>
          have less : x + 1 ≤ y := later y q hp hlt
          rcases less.lt_or_eq with less | rfl
          · exact .inr (List.cons_lt_cons_iff.2 (.inl less))
          · obtain ⟨-, hlength, hq⟩ := cons_mem_combinations.1 hp
            have first := range'_first hq
            rw [hlength, ← length] at first
            exact cons_eq_or_lt (x + 1) first
      · rename_i full
        intro p hp hlt
        cases p with
        | nil => exact List.not_lt_nil _ hlt
        | cons y q =>
          have less := later y q hp hlt
          obtain ⟨hy, hlength, hq⟩ := cons_mem_combinations.1 hp
          have := hq.add_length_le (by omega)
          omega

end CnotRouting
