/-! # The first best element of a list

Of the elements that no other element beats, the first in the list is chosen. The choice is made in
one pass that remembers the best element so far. -/

namespace CnotRouting

/-- The better of the best element so far and one more element. -/
def keepBest {α : Type} (beats : α → α → Bool) (best : Option α) (x : α) : Option α :=
  match best with
  | none => some x
  | some b => if beats x b then some x else some b

/-- The element left standing when each element in turn meets the best one before it. -/
def firstBest? {α : Type} (beats : α → α → Bool) (l : List α) : Option α :=
  l.foldl (keepBest beats) none

def keepLeast {α : Type} (weight : α → Nat) : Option α → α → Option α :=
  keepBest fun x y => weight x < weight y

/-- The first of the elements with the least weight. -/
def firstLeast? {α : Type} (weight : α → Nat) (l : List α) : Option α :=
  l.foldl (keepLeast weight) none

@[simp] theorem firstBest?_nil {α : Type} (beats : α → α → Bool) :
    firstBest? beats [] = none := rfl

/-- A best element kept in a pass is the one it started with or one that was met. -/
theorem mem_of_foldl_keepBest {α : Type} {beats : α → α → Bool} {l : List α} {best : Option α}
    {a : α} (h : l.foldl (keepBest beats) best = some a) : best = some a ∨ a ∈ l := by
  induction l generalizing best with
  | nil => exact .inl h
  | cons x l ih =>
    rcases ih h with hx | hl
    · cases best with
      | none => simp_all [keepBest]
      | some b =>
        simp only [keepBest] at hx
        split at hx <;> simp_all
    · exact .inr (List.mem_cons_of_mem x hl)

theorem mem_of_firstBest?_eq_some {α : Type} {beats : α → α → Bool} {l : List α} {a : α}
    (h : firstBest? beats l = some a) : a ∈ l := by
  simpa using mem_of_foldl_keepBest h

theorem foldl_keepLeast_le {α : Type} {weight : α → Nat} {l : List α} {best : Option α} {a : α}
    (h : l.foldl (keepLeast weight) best = some a) :
    (∀ b, best = some b → weight a ≤ weight b) ∧ ∀ b ∈ l, weight a ≤ weight b := by
  induction l generalizing best with
  | nil =>
    obtain rfl : best = some a := h
    simp
  | cons x l ih =>
    obtain ⟨hbest, hl⟩ := ih h
    cases best with
    | none => exact ⟨by simp, List.forall_mem_cons.2 ⟨hbest x rfl, hl⟩⟩
    | some b =>
      simp only [keepLeast, keepBest, decide_eq_true_eq] at hbest
      split at hbest
      · rename_i lighter
        have hx := hbest x rfl
        refine ⟨?_, List.forall_mem_cons.2 ⟨hx, hl⟩⟩
        intro b' hb'
        cases hb'
        omega
      · rename_i heavier
        have hb := hbest b rfl
        refine ⟨?_, List.forall_mem_cons.2 ⟨by omega, hl⟩⟩
        intro b' hb'
        cases hb'
        exact hb

/-- No element is lighter than the one chosen. -/
theorem le_of_firstLeast?_eq_some {α : Type} {weight : α → Nat} {l : List α} {a : α}
    (h : firstLeast? weight l = some a) : ∀ b ∈ l, weight a ≤ weight b :=
  (foldl_keepLeast_le h).2

end CnotRouting
