import CnotRouting.Proofs.NextArrangements
import CnotRouting.Proofs.PlacedCircuits
import Mathlib.Data.List.Permutation
import Mathlib.Data.List.Sort
import Mathlib.Data.List.Sublists
import Mathlib.Data.Nat.Choose.Bounds

/-!
# Enumerated placements

The enumeration meets every placement of `l` lines on `n` sites exactly once. Placements are ordered
by their sets of sites, and those on one set by the sites of their lines.
-/

namespace CnotRouting

/-- The orders of a set, as they are met. -/
def orders (set : List Nat) : List (List Nat) :=
  successors nextPermutation? (set.length.pow set.length) set

/-- The lists of `l` distinct numbers below `n`, as they are met. -/
def arrangements (n l : Nat) : List (List Nat) :=
  (successors (nextCombination? n) (n.pow l) (List.range l)).flatMap orders

theorem foldArrangements_eq {β : Type} (n l : Nat) (f : β → List Nat → β) (acc : β) :
    foldArrangements n l f acc = (arrangements n l).foldl f acc := by
  have each : foldOrders f = fun acc set => (orders set).foldl f acc := by
    funext acc set
    exact foldSuccessors_eq nextPermutation? f _ acc set
  rw [foldArrangements, each, foldSuccessors_eq, arrangements, List.foldl_flatMap]

/-- Whether a list of sites comes before another: by their sets in increasing order, and on one set
by the lists themselves. -/
def IsMetBefore (sites others : List Nat) : Prop :=
  sites.mergeSort < others.mergeSort ∨ sites.mergeSort = others.mergeSort ∧ sites < others

theorem pairwise_mergeSort (sites : List Nat) : sites.mergeSort.Pairwise (· ≤ ·) := by
  exact List.pairwise_mergeSort' (· ≤ ·) sites

theorem mergeSort_eq_of_perm {sites set : List Nat} (hset : set.Pairwise (· < ·))
    (h : sites.Perm set) : sites.mergeSort = set := by
  have sorted : set.Pairwise (· ≤ ·) := hset.imp Nat.le_of_lt
  exact List.Perm.eq_of_pairwise (fun _ _ _ _ => Nat.le_antisymm) (pairwise_mergeSort sites) sorted
    ((List.mergeSort_perm sites _).trans h)

theorem nextPermutation?_isNext_of_perm {set a : List Nat} (ha : a.Perm set) :
    IsNextIn (· < ·) {p : List Nat | p.Perm set} a (nextPermutation? a) := by
  have same : {p : List Nat | p.Perm set} = {p : List Nat | p.Perm a} := by
    ext p
    exact ⟨fun hp => List.Perm.trans hp ha.symm, fun hp => List.Perm.trans hp ha⟩
  rw [same]
  exact nextPermutation?_isNext a

/-- Every order of a set is met. -/
theorem mem_orders {set p : List Nat} (hset : set.Pairwise (· < ·)) :
    p ∈ orders set ↔ p.Perm set := by
  apply mem_successors_iff (fun a ha => nextPermutation?_isNext_of_perm ha) (List.Perm.refl set)
    set.permutations
  · intro p hp
    exact increasing_first (hset.imp Nat.le_of_lt) hp
  · intro p hp
    exact List.mem_permutations.2 hp
  · rw [List.length_permutations]
    exact Nat.le_succ_of_le (Nat.factorial_le_pow set.length)

theorem orders_in_order (set : List Nat) : (orders set).Pairwise (· < ·) :=
  (successors_in_order (fun _ ha => nextPermutation?_isNext_of_perm ha) _ (List.Perm.refl set)).2

theorem range_mem_combinations {n l : Nat} (hl : l ≤ n) : List.range l ∈ combinations 0 n l := by
  rw [List.range_eq_range']
  exact ⟨List.length_range', isCombination_range' (by omega)⟩

/-- A set of numbers below `n` is a part of all of them. -/
theorem IsCombination.sublist_range {n : Nat} {l : List Nat} (h : IsCombination 0 n l) :
    l.Sublist (List.range n) := by
  apply List.sublist_of_subperm_of_pairwise (r := (· ≤ ·))
  · apply List.subperm_of_subset (h.increasing.imp Nat.ne_of_lt)
    intro a ha
    exact List.mem_range.2 (h.bounds a ha).2
  · exact h.increasing.imp Nat.le_of_lt
  · exact List.pairwise_le_range

/-- Every set is met. -/
theorem mem_successors_combinations {n l : Nat} (hl : l ≤ n) {set : List Nat} :
    set ∈ successors (nextCombination? n) (n.pow l) (List.range l) ↔ set ∈ combinations 0 n l := by
  apply mem_successors_iff (fun a ha => nextCombination?_isNext ha) (range_mem_combinations hl)
    ((List.range n).sublistsLen l)
  · rintro set ⟨rfl, hset⟩
    rw [List.range_eq_range']
    exact range'_first hset
  · rintro set ⟨rfl, hset⟩
    exact List.mem_sublistsLen.2 ⟨hset.sublist_range, rfl⟩
  · rw [List.length_sublistsLen, List.length_range]
    exact Nat.le_succ_of_le (Nat.choose_le_pow n l)

/-- The placements of `l` lines on `n` sites are met, and nothing else. -/
theorem mem_arrangements {n l : Nat} (hl : l ≤ n) {sites : List Nat} :
    sites ∈ arrangements n l ↔ Placement.Fits ⟨sites⟩ l n := by
  rw [arrangements, List.mem_flatMap]
  constructor
  · rintro ⟨set, hset, hsites⟩
    obtain ⟨length, increasing, bounds⟩ := (mem_successors_combinations hl).1 hset
    have perm := (mem_orders increasing).1 hsites
    have nodup : set.Nodup := increasing.imp Nat.ne_of_lt
    exact ⟨perm.length_eq.trans length, perm.nodup_iff.2 nodup,
      fun s hs => (bounds s (perm.mem_iff.1 hs)).2⟩
  · intro fits
    have perm : sites.mergeSort.Perm sites := List.mergeSort_perm sites _
    have increasing : sites.mergeSort.Pairwise (· < ·) := by
      have distinct : sites.mergeSort.Pairwise (· ≠ ·) := perm.nodup_iff.2 fits.nodup
      exact (pairwise_mergeSort sites).imp₂ (fun _ _ => Nat.lt_of_le_of_ne) distinct
    refine ⟨sites.mergeSort, ?_, (mem_orders increasing).2 perm.symm⟩
    apply (mem_successors_combinations hl).2
    refine ⟨perm.length_eq.trans fits.length, increasing, ?_⟩
    intro s hs
    exact ⟨Nat.zero_le s, fits.lt s (perm.mem_iff.1 hs)⟩

/-- No placement is met twice, and every one is met in its order. -/
theorem arrangements_in_order {n l : Nat} (hl : l ≤ n) :
    (arrangements n l).Pairwise IsMetBefore := by
  obtain ⟨members, order⟩ := successors_in_order (S := combinations 0 n l)
    (fun a ha => nextCombination?_isNext ha) (n.pow l) (range_mem_combinations hl)
  have sorted : ∀ set ∈ successors (nextCombination? n) (n.pow l) (List.range l),
      ∀ sites ∈ orders set, sites.mergeSort = set := by
    intro set hset sites hsites
    have increasing := (members set hset).1.2.increasing
    exact mergeSort_eq_of_perm increasing ((mem_orders increasing).1 hsites)
  rw [arrangements, List.pairwise_flatMap]
  constructor
  · intro set hset
    refine (orders_in_order set).imp_of_mem ?_
    intro sites others hsites hothers before
    exact .inr ⟨(sorted set hset _ hsites).trans (sorted set hset _ hothers).symm, before⟩
  · refine order.imp_of_mem ?_
    intro set other hset hother before sites hsites others hothers
    left
    rwa [sorted set hset sites hsites, sorted other hother others hothers]

end CnotRouting
