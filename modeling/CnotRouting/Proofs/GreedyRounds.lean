import CnotRouting.Proofs.FirstLeast
import CnotRouting.Proofs.FoundPlacements

/-!
# Rounds of the greedy search

A round can be told as it is carried out on the two lists of an occupation. Exchanging two sites
writes two entries of each list. The exchange of the chosen site with every other open site is tried
and taken back, the first that lowers the cost most is made, and the cost of its trial is carried
on. In this form the lists stay inverse to each other, the carried cost stays the cost of the
occupation, and a round closes one open site whose occupant is not moved again.
-/

namespace CnotRouting

namespace Occupation

/-- Exchanges the occupants of two sites, and writes down for both where they stand then. -/
def exchange (o : Occupation) (p q : Nat) : Occupation :=
  { o with
    sites := (o.sites.setIfInBounds (o.occupantOf q) p).setIfInBounds (o.occupantOf p) q
    occupants := o.occupants.swapIfInBounds p q }

/-- Settling the occupant of site `p`, with the cost carried beside the occupation. The occupant stays
if no exchange lowers the cost. Otherwise the first exchange of least cost is made. -/
inductive Settles (i : Interactions) (t : RouteTable) (p : Nat) :
    Occupation × Nat → Occupation × Nat → Prop where
  | stays {o cost}
      (no_gain : ∀ q ∈ o.openSites, q ≠ p → cost ≤ i.placedCost t (o.exchange p q).siteOf) :
      Settles i t p (o, cost) (o.close p, cost)
  | moves {o cost q} (open_q : q ∈ o.openSites) (other : q ≠ p)
      (gain : i.placedCost t (o.exchange p q).siteOf < cost)
      (least : ∀ s ∈ o.openSites, s ≠ p →
        i.placedCost t (o.exchange p q).siteOf ≤ i.placedCost t (o.exchange p s).siteOf)
      (first : ∀ s ∈ o.openSites, s ≠ p → s < q →
        i.placedCost t (o.exchange p q).siteOf < i.placedCost t (o.exchange p s).siteOf) :
      Settles i t p (o, cost) ((o.exchange p q).close q, i.placedCost t (o.exchange p q).siteOf)

variable {o : Occupation} {n : Nat}

/-! ### Exchanges -/

theorem swap_swap {p q : Nat} (hp : p < o.occupants.size) (hq : q < o.occupants.size) :
    (o.swap p q).swap p q = o := by
  simp [swap, Array.swapIfInBounds, hp, hq, Function.comp_def, exchanged_exchanged]

theorem IsBijective.siteOf_eq_iff (h : o.IsBijective n) {a s : Nat} (ha : a < n) (hs : s < n) :
    o.siteOf a = s ↔ o.occupantOf s = a := by
  constructor
  · rintro rfl
    exact h.occupantOf_siteOf a ha
  · rintro rfl
    exact h.siteOf_occupantOf s hs

/-- On a bijective occupation the two entries that are written are all that an exchange changes. -/
theorem IsBijective.exchange_eq_swap (h : o.IsBijective n) {p q : Nat} (hp : p < n) (hq : q < n) :
    o.exchange p q = o.swap p q := by
  have sites : (o.sites.setIfInBounds (o.occupantOf q) p).setIfInBounds (o.occupantOf p) q =
      o.sites.map (exchanged p q) := by
    apply Array.ext
    · simp
    · intro a _ ha
      have bound : a < o.sites.size := by simpa using ha
      have here : o.siteOf a = o.sites[a] := by simp [siteOf, bound]
      have at_p := h.siteOf_eq_iff (h.sites_size ▸ bound) hp
      have at_q := h.siteOf_eq_iff (h.sites_size ▸ bound) hq
      rw [here] at at_p at_q
      rw [Array.getElem_setIfInBounds (by simpa using bound), Array.getElem_setIfInBounds bound]
      simp only [Array.getElem_map, exchanged, at_p, at_q]
  rw [exchange, Occupation.swap, sites]

/-- An exchange that was tried is taken back by the same exchange. -/
theorem IsBijective.exchange_exchange (h : o.IsBijective n) {p q : Nat} (hp : p < n) (hq : q < n) :
    (o.exchange p q).exchange p q = o := by
  have size := h.occupants_size
  rw [h.exchange_eq_swap hp hq, (h.swap hp hq).exchange_eq_swap hp hq]
  exact swap_swap (by omega) (by omega)

/-! ### One round -/

namespace Settles

variable {i : Interactions} {t : RouteTable} {p : Nat} {x y : Occupation × Nat}

theorem isBijective (h : Settles i t p x y) (hx : x.1.IsBijective n) (hp : p < n) :
    y.1.IsBijective n := by
  cases h with
  | stays no_gain => exact hx.close p
  | @moves o cost q open_q other gain least first =>
    have hq : q < n := hx.open_lt q open_q
    rw [hx.exchange_eq_swap hp hq]
    exact (hx.swap hp hq).close q

/-- A round closes one open site. -/
theorem exists_closed (h : Settles i t p x y) (hp : p ∈ x.1.openSites) :
    ∃ s ∈ x.1.openSites, y.1.openSites = x.1.openSites.erase s := by
  cases h with
  | stays no_gain => exact ⟨p, hp, rfl⟩
  | @moves o cost q open_q other gain least first => exact ⟨q, open_q, rfl⟩

/-- A round leaves the occupants of closed sites where they are. -/
theorem occupantOf_eq (h : Settles i t p x y) (hx : x.1.IsBijective n) (hp : p ∈ x.1.openSites)
    {s : Nat} (hs : s < n) (closed : s ∉ x.1.openSites) :
    y.1.occupantOf s = x.1.occupantOf s := by
  cases h with
  | stays no_gain => rfl
  | @moves o cost q open_q other gain least first =>
    have hpn := hx.open_lt p hp
    have hqn := hx.open_lt q open_q
    have size : o.occupants.size = n := hx.occupants_size
    have aside : exchanged p q s = s := by
      have hsp : s ≠ p := fun h => closed (h ▸ hp)
      have hsq : s ≠ q := fun h => closed (h ▸ open_q)
      simp [exchanged, hsp, hsq]
    rw [hx.exchange_eq_swap hpn hqn]
    change (o.swap p q).occupantOf s = o.occupantOf s
    rw [occupantOf_swap (by omega) (by omega) (by omega), aside]

/-- The cost that is carried is the cost of the occupation. -/
theorem cost_eq (h : Settles i t p x y) (hx : x.2 = i.placedCost t x.1.siteOf) :
    y.2 = i.placedCost t y.1.siteOf := by
  cases h with
  | stays no_gain => exact hx
  | moves open_q other gain least first => rfl

theorem cost_le (h : Settles i t p x y) : y.2 ≤ x.2 := by
  cases h with
  | stays no_gain => exact Nat.le_refl _
  | moves open_q other gain least first => exact Nat.le_of_lt gain

/-- A round that does not lower the cost moves nothing. -/
theorem sites_eq (h : Settles i t p x y) (same : y.2 = x.2) : y.1.sites = x.1.sites := by
  cases h with
  | stays no_gain => rfl
  | moves open_q other gain least first => exact absurd same (Nat.ne_of_lt gain)

end Settles

theorem settle_of_gain {i : Interactions} {t : RouteTable} {p q : Nat}
    (best : firstLeast? (fun q => i.placedCost t (o.siteAfter p q)) (o.openSites.erase p) = some q)
    (gain : i.placedCost t (o.siteAfter p q) < i.placedCost t o.siteOf) :
    o.settle i t p = (o.swap p q).close q := by
  simp only [settle, best, gain, if_true]

theorem settle_of_no_gain {i : Interactions} {t : RouteTable} {p : Nat}
    (no_gain : ∀ q ∈ o.openSites.erase p,
      i.placedCost t o.siteOf ≤ i.placedCost t (o.siteAfter p q)) :
    o.settle i t p = o.close p := by
  rw [settle]
  simp only
  split
  · rename_i q best
    exact if_neg (Nat.not_lt.2 (no_gain q (mem_of_firstBest?_eq_some best)))
  · rfl

/-- The search settles an occupant as described, with the cost counted anew or carried on. -/
theorem settles_settle {i : Interactions} {t : RouteTable} (h : i.IsServedBy t)
    (ho : o.IsBijective t.size) (increasing : o.openSites.Pairwise (· < ·)) {p : Nat}
    (hp : p ∈ o.openSites) : Settles i t p (o, i.placedCost t o.siteOf)
      (o.settle i t p, i.placedCost t (o.settle i t p).siteOf) := by
  have nodup : o.openSites.Nodup := increasing.imp Nat.ne_of_lt
  have trial : ∀ q ∈ o.openSites,
      i.placedCost t (o.siteAfter p q) = i.placedCost t (o.exchange p q).siteOf := by
    intro q hq
    rw [ho.exchange_eq_swap (ho.open_lt p hp) (ho.open_lt q hq)]
    apply h.placedCost_congr
    intro a ha
    have width := h.width_le
    have size := ho.sites_size
    exact (siteOf_swap (by omega) p q).symm
  by_cases none : ∀ q ∈ o.openSites.erase p,
      i.placedCost t o.siteOf ≤ i.placedCost t (o.siteAfter p q)
  · rw [settle_of_no_gain none]
    refine .stays fun q hq hqp => ?_
    rw [← trial q hq]
    exact none q (nodup.mem_erase_iff.2 ⟨hqp, hq⟩)
  · simp only [not_forall, Nat.not_le] at none
    obtain ⟨s, hs, gain⟩ := none
    obtain ⟨q, best⟩ := Option.isSome_iff_exists.1 (firstLeast?_isSome
      (fun q => i.placedCost t (o.siteAfter p q)) (List.ne_nil_of_mem hs))
    obtain ⟨hqp, hq⟩ := nodup.mem_erase_iff.1 (mem_of_firstBest?_eq_some best)
    have least := le_of_firstLeast?_eq_some best
    have lower := Nat.lt_of_le_of_lt (least s hs) gain
    rw [settle_of_gain best lower, ← ho.exchange_eq_swap (ho.open_lt p hp) (ho.open_lt q hq)]
    refine .moves hq hqp ?_ ?_ ?_
    · rwa [← trial q hq]
    · intro s hs hsp
      rw [← trial q hq, ← trial s hs]
      exact least s (nodup.mem_erase_iff.2 ⟨hsp, hs⟩)
    · intro s hs hsp hsq
      rw [← trial q hq, ← trial s hs]
      exact weight_lt_of_firstLeast? (increasing.sublist List.erase_sublist) best
        (nodup.mem_erase_iff.2 ⟨hsp, hs⟩) hsq

/-! ### A run of rounds -/

/-- An occupation of `n` sites of which `k` are closed, and the others are listed in order. -/
structure HasClosed (o : Occupation) (n k : Nat) : Prop where
  bijective : o.IsBijective n
  increasing : o.openSites.Pairwise (· < ·)
  open_length : o.openSites.length + k = n

theorem hasClosed_identity (n : Nat) : (identity n).HasClosed n 0 :=
  ⟨isBijective_identity n, List.pairwise_lt_range, by simp [identity]⟩

/-- As long as sites are open, one of them is chosen. -/
theorem HasClosed.exists_pivot {k : Nat} (h : o.HasClosed n k) (hk : k < n) (i : Interactions)
    (t : RouteTable) : ∃ p ∈ o.openSites, o.pivot? i t = some p := by
  have nonempty : o.openSites ≠ [] := by
    intro none
    have := h.open_length
    rw [none, List.length_nil] at this
    omega
  have some : (o.pivot? i t).isSome = true := foldl_keepBest_isSome (.inr nonempty)
  obtain ⟨p, hp⟩ := Option.isSome_iff_exists.1 some
  exact ⟨p, mem_of_firstBest?_eq_some hp, hp⟩

theorem HasClosed.settles {i : Interactions} {t : RouteTable} {p k : Nat} {x y : Occupation × Nat}
    (h : x.1.HasClosed n k) (hp : p ∈ x.1.openSites) (round : Settles i t p x y) :
    y.1.HasClosed n (k + 1) := by
  obtain ⟨s, hs, erased⟩ := round.exists_closed hp
  have total := h.open_length
  have positive := List.length_pos_of_mem hs
  refine ⟨round.isBijective h.bijective (h.bijective.open_lt p hp), ?_, ?_⟩
  · rw [erased]
    exact h.increasing.sublist List.erase_sublist
  · rw [erased, List.length_erase_of_mem hs]
    omega

end Occupation

/-- The occupations of a greedy search with their costs: `run k` is what `k` rounds have made of the
identity. Every round settles the occupant of the open site that is chosen. -/
structure IsGreedyRun (i : Interactions) (t : RouteTable) (run : Nat → Occupation × Nat) : Prop where
  start : run 0 = (.identity t.size, i.placedCost t (Occupation.identity t.size).siteOf)
  round : ∀ k < t.size, ∃ p ∈ (run k).1.openSites, (run k).1.pivot? i t = some p ∧
    Occupation.Settles i t p (run k) (run (k + 1))

namespace IsGreedyRun

variable {i : Interactions} {t : RouteTable} {run : Nat → Occupation × Nat}

theorem hasClosed (h : IsGreedyRun i t run) {k : Nat} (hk : k ≤ t.size) :
    (run k).1.HasClosed t.size k := by
  induction k with
  | zero =>
    rw [h.start]
    exact Occupation.hasClosed_identity t.size
  | succ k ih =>
    obtain ⟨p, hp, -, round⟩ := h.round k hk
    exact (ih (by omega)).settles hp round

theorem cost_eq (h : IsGreedyRun i t run) {k : Nat} (hk : k ≤ t.size) :
    (run k).2 = i.placedCost t (run k).1.siteOf := by
  induction k with
  | zero => rw [h.start]
  | succ k ih =>
    obtain ⟨p, -, -, round⟩ := h.round k hk
    exact round.cost_eq (ih (by omega))

/-- The cost never rises, and as long as it has not been lowered nothing has been moved. -/
theorem cost_le (h : IsGreedyRun i t run) {k : Nat} (hk : k ≤ t.size) :
    (run k).2 ≤ (run 0).2 ∧ ((run k).2 = (run 0).2 → (run k).1.sites = (run 0).1.sites) := by
  induction k with
  | zero => exact ⟨Nat.le_refl _, fun _ => rfl⟩
  | succ k ih =>
    obtain ⟨p, -, -, round⟩ := h.round k hk
    obtain ⟨le, unmoved⟩ := ih (by omega)
    have step := round.cost_le
    refine ⟨step.trans le, fun same => ?_⟩
    exact (round.sites_eq (by omega)).trans (unmoved (by omega))

/-- Each round closes one site that was open. -/
theorem exists_closed (h : IsGreedyRun i t run) {k : Nat} (hk : k < t.size) :
    ∃ s ∈ (run k).1.openSites,
      ∀ q, q ∈ (run (k + 1)).1.openSites ↔ q ∈ (run k).1.openSites ∧ q ≠ s := by
  obtain ⟨p, hp, -, round⟩ := h.round k hk
  obtain ⟨s, hs, erased⟩ := round.exists_closed hp
  have nodup : (run k).1.openSites.Nodup := (h.hasClosed hk.le).increasing.imp Nat.ne_of_lt
  refine ⟨s, hs, fun q => ?_⟩
  rw [erased, nodup.mem_erase_iff, and_comm]

/-- The occupant of a closed site is there to stay. -/
theorem occupantOf_eq (h : IsGreedyRun i t run) {k m s : Nat} (hkm : k ≤ m) (hm : m ≤ t.size)
    (hs : s < t.size) (closed : s ∉ (run k).1.openSites) :
    s ∉ (run m).1.openSites ∧ (run m).1.occupantOf s = (run k).1.occupantOf s := by
  induction m, hkm using Nat.le_induction with
  | base => exact ⟨closed, rfl⟩
  | succ m hkm ih =>
    obtain ⟨still_closed, same⟩ := ih (by omega)
    obtain ⟨p, hp, -, round⟩ := h.round m hm
    obtain ⟨_, -, kept⟩ := h.exists_closed hm
    have bijective := (h.hasClosed (Nat.le_of_lt hm)).bijective
    refine ⟨fun reopened => still_closed ((kept s).1 reopened).1, ?_⟩
    exact (round.occupantOf_eq bijective hp hs still_closed).trans same

end IsGreedyRun

/-- The rounds of the greedy search are such a run. After a round for each site the search places the
lines where they stand then. -/
theorem Interactions.IsServedBy.exists_greedyRun {i : Interactions} {t : RouteTable}
    (h : i.IsServedBy t) : ∃ run, IsGreedyRun i t run ∧
      (∀ k, Occupation.rounds i t k (.identity t.size) = .ok (run k).1) ∧
      i.searchGreedily t =
        .ok ⟨(run t.size).2, [⟨(run t.size).1.sites.toList.take i.width⟩], .greedy⟩ := by
  let reached : Nat → Occupation := fun k => (Occupation.advance i t)^[k] (.identity t.size)
  have round : ∀ k < t.size, (reached k).HasClosed t.size k →
      ∃ p ∈ (reached k).openSites, (reached k).pivot? i t = some p ∧
        Occupation.Settles i t p (reached k, i.placedCost t (reached k).siteOf)
          (reached (k + 1), i.placedCost t (reached (k + 1)).siteOf) := by
    intro k hk closed
    obtain ⟨p, hp, chosen⟩ := closed.exists_pivot hk i t
    have next : reached (k + 1) = (reached k).settle i t p := by
      simp only [reached, Function.iterate_succ_apply']
      rw [Occupation.advance]
      simp only [reached] at chosen
      rw [chosen]
    rw [next]
    exact ⟨p, hp, chosen, Occupation.settles_settle h closed.bijective closed.increasing hp⟩
  have closed : ∀ k ≤ t.size, (reached k).HasClosed t.size k := by
    intro k hk
    induction k with
    | zero => exact Occupation.hasClosed_identity t.size
    | succ k ih =>
      have before := ih (by omega)
      obtain ⟨p, hp, -, settles⟩ := round k hk before
      exact before.settles hp settles
  refine ⟨fun k => (reached k, i.placedCost t (reached k).siteOf), ⟨rfl, ?_⟩, ?_,
    h.searchGreedily_eq_ok⟩
  · exact fun k hk => round k hk (closed k hk.le)
  · exact fun k => h.rounds_eq_ok k (Occupation.isBijective_identity t.size)

end CnotRouting
