import CnotRouting.Proofs.GreedyRounds

/-!
# Placements found greedily

The greedy search starts from the identity and makes an exchange only if that lowers the cost. Its
one placement is therefore never costlier than the identity, and as costly only if no exchange was
made. It is no cheaper than the placements that the exhaustive search finds.
-/

namespace CnotRouting

namespace Occupation

theorem sites_identity {n l : Nat} (hl : l ≤ n) :
    (identity n).sites.toList.take l = List.range l := by
  simp [identity, List.take_range, hl]

/-- The lines of the placement stand where they stand in the occupation. -/
theorem IsBijective.siteOf_take {o : Occupation} {n l a : Nat} (h : o.IsBijective n) (hl : l ≤ n)
    (ha : a < l) : Placement.siteOf ⟨o.sites.toList.take l⟩ a = o.siteOf a := by
  have bound : a < o.sites.size := by
    have := h.sites_size
    omega
  simp [Placement.siteOf, siteOf, ha, bound]

end Occupation

namespace Interactions.IsServedBy

variable {i : Interactions} {t : RouteTable} {run : Nat → Occupation × Nat}

/-- The placement that a run ends with costs what the run says. -/
theorem cost_of_run (h : i.IsServedBy t) (hrun : IsGreedyRun i t run) :
    Placement.cost ⟨(run t.size).1.sites.toList.take i.width⟩ i t = .ok (run t.size).2 := by
  have bijective := (hrun.hasClosed (Nat.le_refl _)).bijective
  rw [h.cost_eq_ok (bijective.fits h.width_le), hrun.cost_eq (Nat.le_refl _)]
  congr 1
  exact h.placedCost_congr fun a ha => bijective.siteOf_take h.width_le ha

theorem cost_of_start (h : i.IsServedBy t) (hrun : IsGreedyRun i t run) :
    (Placement.identity i.width).cost i t = .ok (run 0).2 := by
  have bijective := Occupation.isBijective_identity t.size
  rw [h.cost_eq_ok (Placement.fits_identity h.width_le), hrun.start, Placement.identity,
    ← Occupation.sites_identity h.width_le]
  congr 1
  exact h.placedCost_congr fun a ha => bijective.siteOf_take h.width_le ha

/-- The placement is the identity if the cost has not been lowered. -/
theorem eq_identity_of_run (h : i.IsServedBy t) (hrun : IsGreedyRun i t run)
    (same : (run t.size).2 = (run 0).2) :
    (⟨(run t.size).1.sites.toList.take i.width⟩ : Placement) = .identity i.width := by
  rw [(hrun.cost_le (Nat.le_refl _)).2 same, hrun.start, Occupation.sites_identity h.width_le]
  rfl

/-- The exhaustive search finds nothing costlier than any placement. -/
theorem exists_searchAll_le (h : i.IsServedBy t) {p : Placement} (fits : p.Fits i.width t.size)
    {x : Nat} (cost : p.cost i t = .ok x) : ∃ e, i.searchAll t = .ok e ∧ e.cost ≤ x := by
  obtain ⟨e, he, -, ⟨-, least⟩, -, -⟩ := h.searchAll_least
  rw [h.cost_eq_ok fits] at cost
  exact ⟨e, he, least ⟨p, fits, Except.ok.inj cost⟩⟩

end Interactions.IsServedBy

/-- With a full table the greedy search finds one placement of a valid circuit that is not wider than
the table. Its cost is reported; it is at most that of the identity, equal to it for the identity
only, and at least that of the exhaustive search. Throughout the search sites and occupants are
inverse to each other and a trial exchange is taken back exactly; each round closes one open site,
and the occupant of a closed site is never moved. -/
theorem searchGreedily_improves_identity {t : RouteTable} (full : t.costs.size = t.size * t.size)
    {c : Circuit} (valid : c.IsValid) (narrow : c.width ≤ t.size) :
    ∃ r p run, (Interactions.ofCircuit c).searchGreedily t = .ok r ∧ r.strategy = .greedy ∧
      r.placements = [p] ∧ p.Fits c.width t.size ∧ p.cost (.ofCircuit c) t = .ok r.cost ∧
      (∃ x, (Placement.identity c.width).cost (.ofCircuit c) t = .ok x ∧ r.cost ≤ x ∧
        (r.cost = x → p = .identity c.width)) ∧
      (∃ e, (Interactions.ofCircuit c).searchAll t = .ok e ∧ e.cost ≤ r.cost) ∧
      IsGreedyRun (.ofCircuit c) t run ∧
      (∀ k, Occupation.rounds (.ofCircuit c) t k (.identity t.size) = .ok (run k).1) ∧
      r.cost = (run t.size).2 ∧
      p.sites = (run t.size).1.sites.toList.take c.width ∧
      (∀ k ≤ t.size, (run k).1.IsBijective t.size ∧
        ∀ a < t.size, ∀ b < t.size, ((run k).1.exchange a b).exchange a b = (run k).1) ∧
      (∀ k < t.size, ∃ s ∈ (run k).1.openSites,
        ∀ q, q ∈ (run (k + 1)).1.openSites ↔ q ∈ (run k).1.openSites ∧ q ≠ s) ∧
      ∀ k m s, k ≤ m → m ≤ t.size → s < t.size → s ∉ (run k).1.openSites →
        (run m).1.occupantOf s = (run k).1.occupantOf s := by
  have served : (Interactions.ofCircuit c).IsServedBy t :=
    ⟨narrow, full, fun pair hpair => valid.pairs_lt hpair⟩
  obtain ⟨run, hrun, rounds, result⟩ := served.exists_greedyRun
  have fits := (hrun.hasClosed (Nat.le_refl _)).bijective.fits narrow
  have cost := served.cost_of_run hrun
  refine ⟨_, _, run, result, rfl, rfl, fits, cost, ?_, served.exists_searchAll_le fits cost, hrun,
    rounds, rfl, rfl, ?_, ?_, ?_⟩
  · exact ⟨(run 0).2, served.cost_of_start hrun, (hrun.cost_le (Nat.le_refl _)).1,
      served.eq_identity_of_run hrun⟩
  · intro k hk
    have bijective := (hrun.hasClosed hk).bijective
    exact ⟨bijective, fun a ha b hb => bijective.exchange_exchange ha hb⟩
  · exact fun k hk => hrun.exists_closed hk
  · exact fun k m s hkm hm hs closed => (hrun.occupantOf_eq hkm hm hs closed).2

/-- A CNOT against the edge costs 4 where it stands. -/
theorem searchGreedily_improves_identity_twoQubits :
    ∃ r p, (Interactions.ofCircuit ⟨"", [.unnamed, .unnamed], [.cnot 1 0]⟩).searchGreedily
        Device.twoQubits.table = .ok r ∧ r.placements = [p] ∧ p.Fits 2 2 ∧
      p.cost (.ofCircuit ⟨"", [.unnamed, .unnamed], [.cnot 1 0]⟩) Device.twoQubits.table =
        .ok r.cost ∧ r.cost ≤ 4 ∧ (r.cost = 4 → p = .identity 2) := by
  have valid : Circuit.IsValid ⟨"", [.unnamed, .unnamed], [.cnot 1 0]⟩ := by
    unfold Circuit.IsValid
    decide
  obtain ⟨r, p, -, hr, -, one, fits, cost, ⟨x, identity_cost, le, unmoved⟩, -⟩ :=
    searchGreedily_improves_identity (t := Device.twoQubits.table) (by decide) valid (by decide)
  have four : (Placement.identity 2).cost (.ofCircuit ⟨"", [.unnamed, .unnamed], [.cnot 1 0]⟩)
      Device.twoQubits.table = .ok 4 := by
    apply ok_of_toOption
    decide +kernel
  obtain rfl : 4 = x := Except.ok.inj (four.symm.trans identity_cost)
  exact ⟨r, p, hr, one, fits, cost, le, unmoved⟩

end CnotRouting
