import CnotRouting.PlacementSearch
import CnotRouting.Proofs.EnumeratedPlacements
import Mathlib.Order.Bounds.Basic

/-!
# Placements of least cost

The exhaustive search compares every placement with the least cost met before. In the end it keeps
the placements of least cost and no others, each once, in the order in which they are met.
-/

namespace CnotRouting

namespace Minima

/-- Whether `m` keeps the least of `start` and the weights of the lists that were met, and exactly the
lists of that weight, in order. -/
structure Keeps (m : Minima) (weight : List Nat → Nat) (start : Nat) (met : List (List Nat)) :
    Prop where
  le_start : m.cost ≤ start
  le : ∀ sites ∈ met, m.cost ≤ weight sites
  attained : m.cost = start ∨ ∃ sites ∈ met, weight sites = m.cost
  found : m.found.toList = (met.filter fun sites => weight sites = m.cost).map Placement.mk

variable {weight : List Nat → Nat} {start : Nat} {met : List (List Nat)} {m : Minima}

theorem keeps_nil (weight : List Nat → Nat) (start : Nat) :
    Keeps ⟨start, #[]⟩ weight start [] :=
  ⟨Nat.le_refl start, by simp, .inl rfl, rfl⟩

theorem Keeps.meet (h : m.Keeps weight start met) (sites : List Nat) :
    (m.meet weight sites).Keeps weight start (met ++ [sites]) := by
  have before := h.le
  unfold Minima.meet
  simp only
  split
  · rename_i less
    have none : (met.filter fun others => weight others = weight sites) = [] := by
      rw [List.filter_eq_nil_iff]
      intro others hothers heq
      have := before others hothers
      have : weight others = weight sites := by simpa using heq
      omega
    refine ⟨less.le.trans h.le_start, ?_, .inr ⟨sites, by simp, rfl⟩, by simp [none]⟩
    exact List.forall_mem_append.2 ⟨fun others hothers => less.le.trans (before others hothers),
      List.forall_mem_singleton.2 (Nat.le_refl _)⟩
  · split
    · rename_i equal
      refine ⟨h.le_start, ?_, ?_, ?_⟩
      · exact List.forall_mem_append.2 ⟨before, List.forall_mem_singleton.2 equal.ge⟩
      · exact .inr ⟨sites, by simp, equal⟩
      · simp [h.found, equal]
    · rename_i notLess notEqual
      refine ⟨h.le_start, ?_, ?_, ?_⟩
      · exact List.forall_mem_append.2 ⟨before, List.forall_mem_singleton.2 (Nat.not_lt.1 notLess)⟩
      · exact h.attained.imp_right fun ⟨others, hothers, heq⟩ =>
          ⟨others, List.mem_append_left _ hothers, heq⟩
      · simp [h.found, notEqual]

theorem Keeps.meet_all (h : m.Keeps weight start met) (l : List (List Nat)) :
    (l.foldl (Minima.meet weight) m).Keeps weight start (met ++ l) := by
  induction l generalizing m met with
  | nil => simpa using h
  | cons sites l ih => simpa using ih (h.meet sites)

end Minima

/-- Whether a table has a cost for every pair of its qubits, and qubits enough for the lines of the
interactions. -/
structure Interactions.IsServedBy (i : Interactions) (t : RouteTable) : Prop where
  width_le : i.width ≤ t.size
  costs_size : t.costs.size = t.size * t.size
  pairs_lt : ∀ pair ∈ i.pairs, pair.1 < i.width ∧ pair.2 < i.width

variable {i : Interactions} {t : RouteTable}

/-- The exhaustive search finds exactly the placements of least cost, each once and in order. -/
theorem Interactions.IsServedBy.searchAll_least (h : i.IsServedBy t) :
    ∃ r, i.searchAll t = .ok r ∧ r.strategy = .exhaustive ∧
      IsLeast {x | ∃ p : Placement, p.Fits i.width t.size ∧ i.placedCost t p.siteOf = x} r.cost ∧
      (∀ p, p ∈ r.placements ↔ p.Fits i.width t.size ∧ i.placedCost t p.siteOf = r.cost) ∧
      r.placements.Pairwise fun p q => IsMetBefore p.sites q.sites := by
  let weight : List Nat → Nat := fun sites => i.placedCost t (Placement.siteOf ⟨sites⟩)
  let minima := (arrangements t.size i.width).foldl (Minima.meet weight)
    ⟨weight (List.range i.width), #[]⟩
  have covered : ¬(i.pairs ≠ [] ∧ !t.coversPairs) := by
    simp [RouteTable.coversPairs, h.costs_size]
  have result : i.searchAll t = .ok ⟨minima.cost, minima.found.toList, .exhaustive⟩ := by
    rw [searchAll]
    rw [if_neg (Nat.not_lt.2 h.width_le), if_neg covered]
    simp only [foldArrangements_eq]
    rfl
  have kept : minima.Keeps weight (weight (List.range i.width)) (arrangements t.size i.width) := by
    simpa using (Minima.keeps_nil weight _).meet_all (arrangements t.size i.width)
  have identity : List.range i.width ∈ arrangements t.size i.width := by
    apply (mem_arrangements h.width_le).2
    refine ⟨List.length_range, List.nodup_range, ?_⟩
    intro s hs
    exact (List.mem_range.1 hs).trans_le h.width_le
  refine ⟨_, result, rfl, ⟨?_, ?_⟩, ?_, ?_⟩
  · rcases kept.attained with heq | ⟨sites, hsites, heq⟩
    · exact ⟨_, (mem_arrangements h.width_le).1 identity, heq.symm⟩
    · exact ⟨_, (mem_arrangements h.width_le).1 hsites, heq⟩
  · rintro x ⟨p, fits, rfl⟩
    exact kept.le p.sites ((mem_arrangements h.width_le).2 fits)
  · intro p
    simp only [kept.found, List.mem_map, List.mem_filter, decide_eq_true_eq]
    constructor
    · rintro ⟨sites, ⟨hsites, heq⟩, rfl⟩
      exact ⟨(mem_arrangements h.width_le).1 hsites, heq⟩
    · rintro ⟨fits, heq⟩
      exact ⟨p.sites, ⟨(mem_arrangements h.width_le).2 fits, heq⟩, rfl⟩
  · simp only [kept.found]
    rw [List.pairwise_map]
    exact (arrangements_in_order h.width_le).filter _

end CnotRouting
