import CnotRouting.FirstBest
import Mathlib.Data.List.Induction

/-!
# The first of the least

A pass that keeps the best element ends with one unless there is none to meet. The lightest element
it keeps is lighter than all before it in the list and no heavier than those after it.
-/

namespace CnotRouting

theorem foldl_keepBest_isSome {α : Type} {beats : α → α → Bool} {l : List α} {best : Option α}
    (h : best.isSome = true ∨ l ≠ []) : (l.foldl (keepBest beats) best).isSome = true := by
  induction l generalizing best with
  | nil => simpa using h
  | cons x l ih =>
    rw [List.foldl_cons]
    apply ih
    left
    cases best with
    | none => rfl
    | some b =>
      simp only [keepBest]
      split <;> rfl

section

variable {α : Type} {weight : α → Nat}

theorem firstLeast?_concat (l : List α) (x : α) :
    firstLeast? weight (l ++ [x]) = keepLeast weight (firstLeast? weight l) x := by
  simp [firstLeast?]

theorem firstLeast?_isSome (weight : α → Nat) {l : List α} (h : l ≠ []) :
    (firstLeast? weight l).isSome = true :=
  foldl_keepBest_isSome (.inr h)

/-- The first of the least elements cuts the list in those that are heavier and those that are no
lighter. -/
theorem exists_split_of_firstLeast? {l : List α} {a : α} (h : firstLeast? weight l = some a) :
    ∃ before after, l = before ++ a :: after ∧ (∀ b ∈ before, weight a < weight b) ∧
      ∀ b ∈ after, weight a ≤ weight b := by
  induction l using List.reverseRecOn generalizing a with
  | nil => cases h
  | append_singleton l x ih =>
    rw [firstLeast?_concat] at h
    cases hl : firstLeast? weight l with
    | none =>
      have empty : l = [] := by
        by_contra nonempty
        simpa [hl] using firstLeast?_isSome weight nonempty
      obtain rfl : x = a := by simpa [hl, keepLeast, keepBest] using h
      exact ⟨[], [], by simp [empty], by simp, by simp⟩
    | some b =>
      have least := le_of_firstLeast?_eq_some hl
      simp only [hl, keepLeast, keepBest, decide_eq_true_eq] at h
      split at h
      · rename_i lighter
        obtain rfl := Option.some.inj h
        exact ⟨l, [], rfl, fun c hc => Nat.lt_of_lt_of_le lighter (least c hc), by simp⟩
      · rename_i heavier
        obtain rfl := Option.some.inj h
        obtain ⟨before, after, rfl, less, le⟩ := ih hl
        refine ⟨before, after ++ [x], by simp, less, ?_⟩
        exact List.forall_mem_append.2 ⟨le, List.forall_mem_singleton.2 (Nat.not_lt.1 heavier)⟩

/-- The same for the least image of the elements of a list. -/
theorem exists_split_of_firstLeast?_map {β : Type} {f : β → α} {l : List β} {a : α}
    (h : firstLeast? weight (l.map f) = some a) :
    ∃ before b after, l = before ++ b :: after ∧ f b = a ∧
      (∀ c ∈ before, weight a < weight (f c)) ∧ ∀ c ∈ after, weight a ≤ weight (f c) := by
  obtain ⟨before, after, heq, less, le⟩ := exists_split_of_firstLeast? h
  obtain ⟨before', rest, rfl, rfl, hrest⟩ := List.map_eq_append_iff.1 heq
  obtain ⟨b, after', rfl, rfl, rfl⟩ := List.map_eq_cons_iff.1 hrest
  exact ⟨before', b, after', rfl, rfl, fun c hc => less (f c) (List.mem_map_of_mem hc),
    fun c hc => le (f c) (List.mem_map_of_mem hc)⟩

/-- In an increasing list of numbers, all that are smaller than the first of the least are heavier. -/
theorem weight_lt_of_firstLeast? {weight : Nat → Nat} {l : List Nat} (increasing : l.Pairwise (· < ·))
    {a : Nat} (h : firstLeast? weight l = some a) {b : Nat} (hb : b ∈ l) (hba : b < a) :
    weight a < weight b := by
  obtain ⟨before, after, rfl, less, -⟩ := exists_split_of_firstLeast? h
  rcases List.mem_append.1 hb with hb | hb
  · exact less b hb
  · have later := (List.pairwise_cons.1 (List.pairwise_append.1 increasing).2.1).1
    rcases List.mem_cons.1 hb with rfl | hb
    · exact absurd hba (Nat.lt_irrefl b)
    · exact absurd (later b hb) (Nat.lt_asymm hba)

end

end CnotRouting
