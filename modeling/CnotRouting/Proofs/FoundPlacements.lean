import CnotRouting.Proofs.ConsistentDevices
import CnotRouting.Proofs.LeastPlacements
import Mathlib.Logic.Function.Iterate

/-!
# Placements found by the search

On a consistent device every strategy finds a placement for a valid circuit that is no larger than
the device. The exhaustive search finds those of least cost. The greedy search exchanges the
occupants of sites of the device, so that its occupation stays bijective.
-/

namespace CnotRouting

theorem exchanged_exchanged (p q s : Nat) : exchanged p q (exchanged p q s) = s := by
  unfold exchanged
  split <;> split <;> simp_all

theorem exchanged_lt {p q s n : Nat} (hp : p < n) (hq : q < n) (hs : s < n) :
    exchanged p q s < n := by
  rw [exchanged]
  split
  · exact hq
  · split
    · exact hp
    · exact hs

namespace Occupation

/-- Whether sites and occupants are inverse to each other, and all open sites exist. -/
structure IsBijective (o : Occupation) (n : Nat) : Prop where
  sites_size : o.sites.size = n
  occupants_size : o.occupants.size = n
  siteOf_lt : ∀ a < n, o.siteOf a < n
  occupantOf_lt : ∀ s < n, o.occupantOf s < n
  occupantOf_siteOf : ∀ a < n, o.occupantOf (o.siteOf a) = a
  siteOf_occupantOf : ∀ s < n, o.siteOf (o.occupantOf s) = s
  open_lt : ∀ s ∈ o.openSites, s < n

theorem isBijective_identity (n : Nat) : (identity n).IsBijective n := by
  have site : ∀ a < n, (identity n).siteOf a = a := by
    intro a ha
    simp [identity, siteOf, ha]
  have occupant : ∀ s < n, (identity n).occupantOf s = s := by
    intro s hs
    simp [identity, occupantOf, hs]
  refine ⟨by simp [identity], by simp [identity], ?_, ?_, ?_, ?_, by simp [identity]⟩
  · intro a ha
    rwa [site a ha]
  · intro s hs
    rwa [occupant s hs]
  · intro a ha
    rw [site a ha, occupant a ha]
  · intro s hs
    rw [occupant s hs, site s hs]

theorem occupantOf_of_lt {o : Occupation} {s : Nat} (hs : s < o.occupants.size) :
    o.occupantOf s = o.occupants[s] := by
  simp [occupantOf, hs]

theorem occupantOf_swap {o : Occupation} {p q s : Nat} (hp : p < o.occupants.size)
    (hq : q < o.occupants.size) (hs : s < o.occupants.size) :
    (o.swap p q).occupantOf s = o.occupantOf (exchanged p q s) := by
  have bound : s < (o.swap p q).occupants.size := by simpa [swap] using hs
  rw [occupantOf_of_lt bound, occupantOf_of_lt (exchanged_lt hp hq hs)]
  simp only [swap, Array.getElem_swapIfInBounds, exchanged, hp, hq, and_true]
  by_cases hsp : s = p
  · simp [hsp]
  · by_cases hsq : s = q
    · by_cases hqp : q = p <;> simp [hsq, hqp]
    · simp [hsp, hsq]

variable {o : Occupation} {n : Nat}

theorem IsBijective.swap (h : o.IsBijective n) {p q : Nat} (hp : p < n) (hq : q < n) :
    (o.swap p q).IsBijective n := by
  have site : ∀ a < n, (o.swap p q).siteOf a = exchanged p q (o.siteOf a) :=
    fun a ha => siteOf_swap (h.sites_size.symm ▸ ha) p q
  have occupant : ∀ s < n, (o.swap p q).occupantOf s = o.occupantOf (exchanged p q s) := by
    intro s hs
    have size := h.occupants_size
    exact occupantOf_swap (by omega) (by omega) (by omega)
  constructor
  · simp [Occupation.swap, h.sites_size]
  · simp [Occupation.swap, h.occupants_size]
  · intro a ha
    rw [site a ha]
    exact exchanged_lt hp hq (h.siteOf_lt a ha)
  · intro s hs
    rw [occupant s hs]
    exact h.occupantOf_lt _ (exchanged_lt hp hq hs)
  · intro a ha
    have hsite := h.siteOf_lt a ha
    rw [site a ha, occupant _ (exchanged_lt hp hq hsite), exchanged_exchanged]
    exact h.occupantOf_siteOf a ha
  · intro s hs
    have there := exchanged_lt hp hq hs
    rw [occupant s hs, site _ (h.occupantOf_lt _ there), h.siteOf_occupantOf _ there,
      exchanged_exchanged]
  · exact h.open_lt

theorem IsBijective.close (h : o.IsBijective n) (p : Nat) : (o.close p).IsBijective n where
  sites_size := h.sites_size
  occupants_size := h.occupants_size
  siteOf_lt := h.siteOf_lt
  occupantOf_lt := h.occupantOf_lt
  occupantOf_siteOf := h.occupantOf_siteOf
  siteOf_occupantOf := h.siteOf_occupantOf
  open_lt := fun s hs => h.open_lt s (List.mem_of_mem_erase hs)

theorem IsBijective.settle (h : o.IsBijective n) {p : Nat} (hp : p < n) (i : Interactions)
    (t : RouteTable) : (o.settle i t p).IsBijective n := by
  rw [Occupation.settle]
  simp only
  split
  · rename_i q hq
    have hopen : q ∈ o.openSites := List.mem_of_mem_erase (mem_of_firstBest?_eq_some hq)
    split
    · exact (h.swap hp (h.open_lt q hopen)).close q
    · exact h.close p
  · exact h.close p

/-- What a round makes of an occupation if the table has all costs for it. -/
def advance (i : Interactions) (t : RouteTable) (o : Occupation) : Occupation :=
  match o.pivot? i t with
  | some p => o.settle i t p
  | none => o

theorem IsBijective.advance (h : o.IsBijective n) (i : Interactions) (t : RouteTable) :
    (o.advance i t).IsBijective n := by
  rw [Occupation.advance]
  split
  · rename_i p hp
    exact h.settle (h.open_lt p (mem_of_firstBest?_eq_some hp)) i t
  · exact h

theorem IsBijective.iterate_advance (h : o.IsBijective n) (i : Interactions) (t : RouteTable)
    (count : Nat) : ((Occupation.advance i t)^[count] o).IsBijective n := by
  induction count generalizing o with
  | zero => exact h
  | succ count ih => exact ih (h.advance i t)

/-- The first sites of a bijective occupation are a placement. -/
theorem IsBijective.fits (h : o.IsBijective n) {l : Nat} (hl : l ≤ n) :
    Placement.Fits ⟨o.sites.toList.take l⟩ l n := by
  have at_site : ∀ a, ∀ ha : a < o.sites.toList.length, o.sites.toList[a] = o.siteOf a := by
    intro a ha
    have bound : a < o.sites.size := by simpa using ha
    simp [siteOf, bound]
  have length : o.sites.toList.length = n := by simpa using h.sites_size
  have nodup : o.sites.toList.Nodup := by
    rw [List.nodup_iff_injective_get]
    rintro ⟨a, ha⟩ ⟨b, hb⟩ heq
    simp only [List.get_eq_getElem, at_site a ha, at_site b hb] at heq
    have back := congrArg o.occupantOf heq
    rw [h.occupantOf_siteOf a (length ▸ ha), h.occupantOf_siteOf b (length ▸ hb)] at back
    exact Fin.ext back
  refine ⟨by simp only [List.length_take, length]; omega, nodup.sublist (List.take_sublist _ _), ?_⟩
  intro s hs
  obtain ⟨a, ha, rfl⟩ := List.mem_iff_getElem.1 (List.mem_of_mem_take hs)
  rw [at_site a ha]
  exact h.siteOf_lt a (length ▸ ha)

end Occupation

/-- Every strategy runs one of the two searches. -/
theorem Interactions.search_eq (i : Interactions) (d : Device) (s : Strategy) :
    i.search d s = i.searchAll d.table ∨ i.search d s = i.searchGreedily d.table := by
  cases s with
  | exhaustive => exact .inl rfl
  | greedy => exact .inr rfl
  | auto limit => exact ite_eq_or_eq ..

namespace Interactions.IsServedBy

variable {i : Interactions} {t : RouteTable}

/-- Every list of sites below the size of the table has a cost. -/
theorem isPriced (h : i.IsServedBy t) {site : Nat → Nat} (hsite : ∀ a < t.size, site a < t.size) :
    i.isPriced t site = true := by
  rw [Interactions.isPriced, List.all_eq_true]
  intro pair hpair
  obtain ⟨hcontrol, htarget⟩ := h.pairs_lt pair hpair
  have width := h.width_le
  have place := CouplingGraph.place_lt (hsite pair.1 (by omega)) (hsite pair.2 (by omega))
  simpa [RouteTable.hasCost, RouteTable.position, h.costs_size] using place

/-- The cost of a placement that fits is the sum over all interactions. -/
theorem cost_eq_ok (h : i.IsServedBy t) {p : Placement} (fits : p.Fits i.width t.size) :
    p.cost i t = .ok (i.placedCost t p.siteOf) := by
  have priced : ∀ pair ∈ i.pairs,
      t.cost (p.siteOf pair.1) (p.siteOf pair.2) = .ok (pairCost t p.siteOf pair) := by
    intro pair hpair
    obtain ⟨hcontrol, htarget⟩ := h.pairs_lt pair hpair
    have hv := fits.siteOf_lt hcontrol
    have hw := fits.siteOf_lt htarget
    have place := h.costs_size ▸ CouplingGraph.place_lt hv hw
    refine t.cost_eq_ok_iff.2 ⟨hv, hw, ?_⟩
    simp [pairCost, RouteTable.costAt, RouteTable.position, place]
  rw [fits.cost_eq]
  exact bind_eq_ok_iff.2 ⟨_, mapM_eq_ok_map priced, rfl⟩

theorem placedCost_congr (h : i.IsServedBy t) {site other : Nat → Nat}
    (same : ∀ a < i.width, site a = other a) : i.placedCost t site = i.placedCost t other := by
  rw [placedCost, placedCost]
  congr 1
  apply List.map_congr_left
  intro pair hpair
  obtain ⟨hcontrol, htarget⟩ := h.pairs_lt pair hpair
  simp only [pairCost, same _ hcontrol, same _ htarget]

theorem round_eq_ok (h : i.IsServedBy t) {o : Occupation} (ho : o.IsBijective t.size) :
    o.round i t = .ok (o.advance i t) := by
  rw [Occupation.round, Occupation.advance]
  cases hp : o.pivot? i t with
  | none => rfl
  | some p =>
    have bound : p < t.size := ho.open_lt p (mem_of_firstBest?_eq_some hp)
    have priced : o.isPriced i t p = true := by
      rw [Occupation.isPriced, Bool.and_eq_true, List.all_eq_true]
      refine ⟨h.isPriced ho.siteOf_lt, ?_⟩
      intro q hq
      have open_lt := ho.open_lt q (List.mem_of_mem_erase hq)
      exact h.isPriced fun a ha => exchanged_lt bound open_lt (ho.siteOf_lt a ha)
    exact if_pos priced

theorem rounds_eq_ok (h : i.IsServedBy t) (count : Nat) {o : Occupation}
    (ho : o.IsBijective t.size) :
    Occupation.rounds i t count o = .ok ((Occupation.advance i t)^[count] o) := by
  induction count generalizing o with
  | zero => rfl
  | succ count ih => exact bind_eq_ok_iff.2 ⟨_, h.round_eq_ok ho, ih (ho.advance i t)⟩

/-- The greedy search ends with the occupation after a round for each site. -/
theorem searchGreedily_eq_ok (h : i.IsServedBy t) : i.searchGreedily t =
    let last := (Occupation.advance i t)^[t.size] (.identity t.size)
    .ok ⟨i.placedCost t last.siteOf, [⟨last.sites.toList.take i.width⟩], .greedy⟩ := by
  rw [searchGreedily]
  rw [if_neg (Nat.not_lt.2 h.width_le),
    h.rounds_eq_ok t.size (Occupation.isBijective_identity t.size)]
  rfl

theorem searchGreedily_fits (h : i.IsServedBy t) :
    ∃ r p, i.searchGreedily t = .ok r ∧ r.best? = some p ∧ p.Fits i.width t.size := by
  have bijective := (Occupation.isBijective_identity t.size).iterate_advance i t t.size
  exact ⟨_, _, h.searchGreedily_eq_ok, rfl, bijective.fits h.width_le⟩

theorem searchAll_fits (h : i.IsServedBy t) :
    ∃ r p, i.searchAll t = .ok r ∧ r.best? = some p ∧ p.Fits i.width t.size := by
  obtain ⟨r, hr, -, ⟨⟨p, fits, heq⟩, -⟩, found, -⟩ := h.searchAll_least
  have nonempty : r.placements ≠ [] := List.ne_nil_of_mem ((found p).2 ⟨fits, heq⟩)
  obtain ⟨best, rest, hbest⟩ := List.exists_cons_of_ne_nil nonempty
  refine ⟨r, best, hr, by simp [SearchResult.best?, hbest], ?_⟩
  exact ((found best).1 (by simp [hbest])).1

/-- Every strategy finds a placement first. -/
theorem search_fits {d : Device} (h : i.IsServedBy d.table) (s : Strategy) :
    ∃ r p, i.search d s = .ok r ∧ r.best? = some p ∧ p.Fits i.width d.table.size := by
  rcases i.search_eq d s with all | greedily
  · exact all ▸ h.searchAll_fits
  · exact greedily ▸ h.searchGreedily_fits

end Interactions.IsServedBy

namespace Device.IsConsistent

variable {d : Device} {c : Circuit}

/-- A consistent device serves every valid circuit that is no larger than it. -/
theorem isServedBy (h : d.IsConsistent) (valid : c.IsValid) (fits : c.width ≤ d.size) :
    (Interactions.ofCircuit c).IsServedBy d.table := by
  have size : d.table.size = d.size := h.size_eq
  refine ⟨size ▸ fits, ?_, fun pair hpair => valid.pairs_lt hpair⟩
  rw [h.costs_eq, Array.size_map, h.routes_size, size]

theorem search_fits (h : d.IsConsistent) (valid : c.IsValid) (fits : c.width ≤ d.size)
    (s : Strategy) : ∃ result p, (Interactions.ofCircuit c).search d s = .ok result ∧
      result.best? = some p ∧ p.Fits c.width d.size := by
  have size : d.table.size = d.size := h.size_eq
  exact size ▸ (h.isServedBy valid fits).search_fits s

end Device.IsConsistent

end CnotRouting
