import CnotRouting.Proofs.FoundPlacements

/-!
# Counted placements

The placements of `l` lines on `n` sites are as many as the falling factorial tells. Their number is
a product that is given up once it passes the greatest count, and the exhaustive search compares
exactly as many placements. The automatic strategy therefore chooses between the two searches by the
comparisons that the exhaustive one would make.
-/

namespace CnotRouting

/-! ### The bounded product -/

/-- A product that has reached the bound does not fall below it again, for no factor is 0. -/
theorem boundedProduct?_eq {bound first : Nat} (positive : 0 < first) (count : Nat) {acc : Nat}
    (below : acc < bound) : boundedProduct? bound first count acc =
      if acc * first.ascFactorial count < bound then some (acc * first.ascFactorial count)
      else none := by
  induction count generalizing first acc with
  | zero => simp [boundedProduct?, below]
  | succ count ih =>
    have product : acc * first.ascFactorial (count + 1) =
        acc * first * (first + 1).ascFactorial count := by
      rw [Nat.ascFactorial_succ, ← Nat.succ_ascFactorial, Nat.mul_assoc]
    rw [boundedProduct?, product]
    split
    · rename_i next
      exact ih (Nat.succ_pos first) next
    · rename_i reached
      have factors : 0 < (first + 1).ascFactorial count := Nat.ascFactorial_pos first count
      have grown : acc * first ≤ acc * first * (first + 1).ascFactorial count :=
        Nat.le_mul_of_pos_right _ factors
      rw [if_neg (by omega)]

theorem arrangementCount_eq (n l : Nat) :
    arrangementCount n l = min (n.descFactorial l) (countBound - 1) := by
  rw [arrangementCount]
  split
  · rename_i few
    rw [Nat.descFactorial_of_lt few, Nat.zero_min]
  · rename_i enough
    have product : (n - l + 1).ascFactorial l = n.descFactorial l := by
      rw [← Nat.add_descFactorial_eq_ascFactorial, Nat.sub_add_cancel (Nat.not_lt.1 enough)]
    rw [boundedProduct?_eq (Nat.succ_pos _) l (by decide), product, Nat.one_mul]
    split
    · rename_i below
      rw [Option.getD_some, Nat.min_eq_left (by omega)]
    · rename_i saturated
      rw [Option.getD_none, Nat.min_eq_right (by omega)]

/-! ### The enumeration -/

/-- The orders of a set are its permutations. -/
theorem length_orders {set : List Nat} (hset : set.Pairwise (· < ·)) :
    (orders set).length = set.length.factorial := by
  have nodup : (orders set).Nodup := (orders_in_order set).imp ne_of_lt
  have distinct : set.Nodup := hset.imp Nat.ne_of_lt
  have same : (orders set).Perm set.permutations := by
    refine (List.perm_ext_iff_of_nodup nodup (List.nodup_permutations set distinct)).2 fun p => ?_
    rw [mem_orders hset, List.mem_permutations]
  rw [same.length_eq, List.length_permutations]

/-- The sets are the parts of all numbers below `n`. -/
theorem length_successors_combinations {n l : Nat} (hl : l ≤ n) :
    (successors (nextCombination? n) (n.pow l) (List.range l)).length = n.choose l := by
  have order := (successors_in_order (S := combinations 0 n l)
    (fun a ha => nextCombination?_isNext ha) (n.pow l) (range_mem_combinations hl)).2
  have same : (successors (nextCombination? n) (n.pow l) (List.range l)).Perm
      ((List.range n).sublistsLen l) := by
    refine (List.perm_ext_iff_of_nodup (order.imp ne_of_lt)
      (List.nodup_sublistsLen l List.nodup_range)).2 fun set => ?_
    rw [mem_successors_combinations hl, List.mem_sublistsLen]
    constructor
    · rintro ⟨length, hset⟩
      exact ⟨hset.sublist_range, length⟩
    · rintro ⟨part, length⟩
      refine ⟨length, List.pairwise_lt_range.sublist part, fun s hs => ?_⟩
      exact ⟨Nat.zero_le s, List.mem_range.1 (part.subset hs)⟩
  rw [same.length_eq, List.length_sublistsLen, List.length_range]

theorem length_arrangements {n l : Nat} (hl : l ≤ n) :
    (arrangements n l).length = n.descFactorial l := by
  have each : ∀ set ∈ successors (nextCombination? n) (n.pow l) (List.range l),
      (orders set).length = l.factorial := by
    intro set hset
    obtain ⟨length, increasing, -⟩ := (mem_successors_combinations hl).1 hset
    rw [length_orders increasing, length]
  rw [arrangements, List.length_flatMap, List.map_congr_left each, List.map_const',
    List.sum_replicate_nat, length_successors_combinations hl,
    Nat.descFactorial_eq_factorial_mul_choose, Nat.mul_comm]

/-! ### The search with a counter -/

/-- Compares one more list of sites and counts it. -/
def Minima.meetCounted (weight : List Nat → Nat) (m : Minima × Nat) (sites : List Nat) :
    Minima × Nat := (m.1.meet weight sites, m.2 + 1)

theorem Minima.foldl_meetCounted (weight : List Nat → Nat) (met : List (List Nat)) (m : Minima)
    (k : Nat) : met.foldl (meetCounted weight) (m, k) =
      (met.foldl (meet weight) m, k + met.length) := by
  induction met generalizing m k with
  | nil => rfl
  | cons sites met ih =>
    rw [List.foldl_cons, List.foldl_cons, List.length_cons, meetCounted, ih]
    simp only [Nat.add_assoc, Nat.add_comm 1]

namespace Interactions

/-- The exhaustive search, beside the number of placements that it has compared. -/
def searchAllCounted (i : Interactions) (t : RouteTable) :
    Except RoutingError (SearchResult × Nat) :=
  if t.size < i.width then .error (.circuitTooLarge i.width t.size)
  else if i.pairs ≠ [] ∧ !t.coversPairs then .error .outOfBounds
  else
    let weight : List Nat → Nat := fun sites => i.placedCost t (Placement.siteOf ⟨sites⟩)
    let last := foldArrangements t.size i.width (Minima.meetCounted weight)
      (⟨weight (List.range i.width), #[]⟩, 0)
    .ok (⟨last.1.cost, last.1.found.toList, .exhaustive⟩, last.2)

variable {i : Interactions} {t : RouteTable} {r : SearchResult} {k : Nat}

/-- Without the counter this is the search. The counter ends with the number of placements. -/
theorem searchAllCounted_eq_ok_iff : i.searchAllCounted t = .ok (r, k) ↔
    i.searchAll t = .ok r ∧ k = t.size.descFactorial i.width := by
  rw [searchAllCounted, searchAll]
  split
  · simp
  · rename_i narrow
    split
    · simp
    · simp only [foldArrangements_eq, Minima.foldl_meetCounted, Nat.zero_add,
        length_arrangements (Nat.not_lt.1 narrow), Except.ok.injEq, Prod.mk.injEq, eq_comm (b := k)]

/-- The searches report their own strategies. -/
theorem strategy_of_searchAll (h : i.searchAll t = .ok r) : r.strategy = .exhaustive := by
  rw [searchAll] at h
  split at h
  · cases h
  · split at h
    · cases h
    · cases h
      rfl

theorem strategy_of_searchGreedily (h : i.searchGreedily t = .ok r) : r.strategy = .greedy := by
  rw [searchGreedily] at h
  split at h
  · cases h
  · obtain ⟨last, -, h⟩ := bind_eq_ok_iff.1 h
    cases h
    rfl

theorem search_auto (i : Interactions) (d : Device) (limit : Nat) : i.search d (.auto limit) =
    if min (d.size.descFactorial i.width) (countBound - 1) ≤ limit then i.searchAll d.table
    else i.searchGreedily d.table := by
  rw [search, arrangementCount_eq]

end Interactions

/-- The number of placements is counted exactly up to the greatest count, and the exhaustive search
compares as many. On a device with a full table the automatic strategy runs the exhaustive search if
the number that this one compares is within the limit, and else the greedy one. The result is
that of the search that was run, and names its strategy. -/
theorem auto_follows_compared_placements :
    (∀ n l, arrangementCount n l = min (n.descFactorial l) (countBound - 1) ∧
      (n < l → arrangementCount n l = 0)) ∧
    (∀ (i : Interactions) (t : RouteTable) (r : SearchResult) (k : Nat),
      i.searchAllCounted t = .ok (r, k) ↔
        i.searchAll t = .ok r ∧ k = t.size.descFactorial i.width) ∧
    (∀ (i : Interactions) (d : Device) (limit : Nat), i.search d (.auto limit) =
      if min (d.size.descFactorial i.width) (countBound - 1) ≤ limit then i.searchAll d.table
      else i.searchGreedily d.table) ∧
    ∀ (i : Interactions) (d : Device) (limit : Nat), i.IsServedBy d.table →
      d.table.size = d.size → ∃ all k r, i.searchAllCounted d.table = .ok (all, k) ∧
        (k < countBound → arrangementCount d.size i.width = k) ∧
        i.search d (.auto limit) = .ok r ∧
        (min k (countBound - 1) ≤ limit → r = all ∧ r.strategy = .exhaustive) ∧
        (limit < min k (countBound - 1) →
          i.searchGreedily d.table = .ok r ∧ r.strategy = .greedy) := by
  refine ⟨fun n l => ⟨arrangementCount_eq n l, fun few => if_pos few⟩,
    fun _ _ _ _ => Interactions.searchAllCounted_eq_ok_iff, Interactions.search_auto, ?_⟩
  intro i d limit served size
  obtain ⟨all, -, hall, -, -⟩ := served.searchAll_fits
  obtain ⟨greedy, -, hgreedy, -, -⟩ := served.searchGreedily_fits
  have counted := Interactions.searchAllCounted_eq_ok_iff.2 ⟨hall, rfl⟩
  have search := Interactions.search_auto i d limit
  have exact : d.size.descFactorial i.width < countBound →
      arrangementCount d.size i.width = d.size.descFactorial i.width := by
    intro below
    rw [arrangementCount_eq, Nat.min_eq_left (by omega)]
  rw [size] at counted
  by_cases within : min (d.size.descFactorial i.width) (countBound - 1) ≤ limit
  · rw [if_pos within, hall] at search
    have strategy := Interactions.strategy_of_searchAll hall
    exact ⟨all, _, all, counted, exact, search, fun _ => ⟨rfl, strategy⟩, fun above => by omega⟩
  · rw [if_neg within, hgreedy] at search
    have strategy := Interactions.strategy_of_searchGreedily hgreedy
    exact ⟨all, _, greedy, counted, exact, search, fun below => by omega,
      fun _ => ⟨hgreedy, strategy⟩⟩

/-- Two lines on two sites have two placements, one more than the limit. -/
theorem auto_follows_compared_placements_twoQubits :
    let i : Interactions := ⟨2, [(1, 0)]⟩
    i.IsServedBy Device.twoQubits.table ∧ ∃ all r,
      i.searchAllCounted Device.twoQubits.table = .ok (all, 2) ∧
      i.search .twoQubits (.auto 1) = .ok r ∧ r.strategy = .greedy := by
  intro i
  have served : i.IsServedBy Device.twoQubits.table := ⟨by decide, by decide, by decide⟩
  obtain ⟨-, counts, -, runs⟩ := auto_follows_compared_placements
  obtain ⟨all, k, r, counted, -, search, -, greedily⟩ := runs i .twoQubits 1 served rfl
  obtain ⟨-, rfl⟩ := (counts _ _ _ _).1 counted
  exact ⟨served, all, r, counted, search, (greedily (by decide)).2⟩

end CnotRouting
