import CnotRouting.Interactions
import Mathlib.Data.List.Perm.Basic
import Mathlib.Tactic.Ring

/-!
# Counted interactions

The cost of a circuit can be summed CNOT by CNOT, or over its distinct pairs weighted by how often
they occur. Both sums are the same.
-/

namespace CnotRouting

theorem totalCost_perm {costs more : List Nat} (h : costs.Perm more) :
    totalCost costs = totalCost more := by
  induction h with
  | nil => rfl
  | cons c _ ih => rw [totalCost_cons, totalCost_cons, ih]
  | swap c c' costs =>
    simp only [totalCost_cons]
    omega
  | trans _ _ ih ih' => rw [ih, ih']

section

variable {α : Type} [BEq α] [LawfulBEq α]

/-- The costs of one element and those of all others. -/
theorem totalCost_map_filter (f : α → Nat) (a : α) (l : List α) :
    totalCost (l.map f) = l.count a * f a + totalCost ((l.filter fun b => !b == a).map f) := by
  induction l with
  | nil => simp
  | cons b l ih =>
    rw [List.map_cons, totalCost_cons, ih]
    by_cases hb : b = a
    · subst hb
      simp
      ring
    · have other : (b == a) = false := by simpa using hb
      simp [List.count_cons, other]
      omega

/-- A sum over a list is the sum over its distinct elements weighted by their counts. -/
theorem totalCost_map_eraseDups (f : α → Nat) (l : List α) :
    totalCost (l.map f) = totalCost (l.eraseDups.map fun a => l.count a * f a) := by
  induction hn : l.length using Nat.strongRecOn generalizing l with
  | _ n ih =>
    cases l with
    | nil => rfl
    | cons a l =>
      have shorter : (l.filter fun b => !b == a).length < n := by
        have := List.length_filter_le (fun b => !b == a) l
        rw [← hn, List.length_cons]
        omega
      have others := ih _ shorter _ rfl
      have counts : ∀ b ∈ (l.filter fun b => !b == a).eraseDups,
          (l.filter fun b => !b == a).count b * f b = (a :: l).count b * f b := by
        intro b hb
        obtain ⟨-, hne⟩ := List.mem_filter.1 (List.mem_eraseDups.1 hb)
        have other : (a == b) = false := by
          rw [beq_eq_false_iff_ne]
          rintro rfl
          simp at hne
        have kept : (l.filter fun b => !b == a).count b = l.count b := List.count_filter hne
        rw [kept, List.count_cons, other]
        rfl
      rw [totalCost_map_filter f a, List.eraseDups_cons, List.map_cons, totalCost_cons,
        ← List.map_congr_left counts, ← others]
      simp

end

/-- The cost of placed interactions is the sum over their distinct pairs weighted by counts. -/
theorem Interactions.placedCost_eq_counts (i : Interactions) (t : RouteTable) (site : Nat → Nat) :
    i.placedCost t site =
      totalCost (i.counts.map fun entry => entry.2.2 * t.costAt (site entry.1) (site entry.2.1)) := by
  rw [placedCost, totalCost_map_eraseDups, counts, List.map_map]
  apply totalCost_perm
  apply List.Perm.map
  exact (List.mergeSort_perm _ _).symm

end CnotRouting
