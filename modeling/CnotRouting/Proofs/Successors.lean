import CnotRouting.PlacementEnumeration
import Mathlib.Data.List.Perm.Subperm
import Mathlib.Order.Defs.Unbundled

/-!
# Enumeration by successors

A fold over the elements that follow each other is a fold over the list of them. If each step leads
to the next element of a set, nothing of the set is passed over, and the list is in order. It holds
the whole set if it starts with the first element and the steps suffice.
-/

namespace CnotRouting

variable {α : Type}

/-- The elements that `foldSuccessors` meets. -/
def successors (next? : α → Option α) : (steps : Nat) → α → List α
  | 0, a => [a]
  | steps + 1, a =>
    match next? a with
    | none => [a]
    | some b => a :: successors next? steps b

theorem foldSuccessors_eq {β : Type} (next? : α → Option α) (f : β → α → β) (steps : Nat) (acc : β)
    (a : α) : foldSuccessors next? f steps acc a = (successors next? steps a).foldl f acc := by
  induction steps generalizing acc a with
  | zero => rfl
  | succ steps ih =>
    simp only [foldSuccessors, successors]
    cases next? a with
    | none => rfl
    | some b => exact ih (f acc a) b

/-- Whether the second is the first element of `S` after `a`, or nothing if none comes after it. -/
def IsNextIn (before : α → α → Prop) (S : Set α) (a : α) : Option α → Prop
  | none => ∀ b ∈ S, ¬ before a b
  | some b => (b ∈ S ∧ before a b) ∧ ∀ c ∈ S, before a c → c = b ∨ before b c

variable {before : α → α → Prop} {S : Set α} {next? : α → Option α}

/-- Unless the steps run out, every element from the first on is met. -/
theorem mem_successors_or_length (hnext : ∀ a ∈ S, IsNextIn before S a (next? a)) (steps : Nat)
    {a : α} (ha : a ∈ S) :
    (∀ b ∈ S, b = a ∨ before a b → b ∈ successors next? steps a) ∨
      (successors next? steps a).length = steps + 1 := by
  induction steps generalizing a with
  | zero => exact .inr rfl
  | succ steps ih =>
    have here := hnext a ha
    simp only [successors]
    cases heq : next? a with
    | none =>
      rw [heq] at here
      left
      rintro b hb (rfl | hab)
      · exact List.mem_cons_self
      · exact absurd hab (here b hb)
    | some next =>
      rw [heq] at here
      obtain ⟨⟨hb, -⟩, first⟩ := here
      rcases ih hb with all | long
      · left
        rintro c hc (rfl | hac)
        · exact List.mem_cons_self
        · exact List.mem_cons_of_mem _ (all c hc (first c hc hac))
      · right
        rw [List.length_cons, long]

variable [IsStrictOrder α before]

/-- The elements that are met belong to the set, start with the first and are in order. -/
theorem successors_in_order (hnext : ∀ a ∈ S, IsNextIn before S a (next? a)) (steps : Nat) {a : α}
    (ha : a ∈ S) : (∀ b ∈ successors next? steps a, b ∈ S ∧ (b = a ∨ before a b)) ∧
      (successors next? steps a).Pairwise before := by
  induction steps generalizing a with
  | zero => simp [successors, ha]
  | succ steps ih =>
    have here := hnext a ha
    simp only [successors]
    cases heq : next? a with
    | none => simp [ha]
    | some next =>
      rw [heq] at here
      obtain ⟨⟨hb, hab⟩, -⟩ := here
      obtain ⟨members, order⟩ := ih hb
      have after : ∀ c ∈ successors next? steps next, before a c := by
        intro c hc
        rcases (members c hc).2 with rfl | hbc
        · exact hab
        · exact trans_of before hab hbc
      refine ⟨?_, List.pairwise_cons.2 ⟨after, order⟩⟩
      intro c hc
      rcases List.mem_cons.1 hc with rfl | hc
      · exact ⟨ha, .inl rfl⟩
      · exact ⟨(members c hc).1, .inr (after c hc)⟩

/-- If the set has at most one element more than there are steps, all of it is met. -/
theorem mem_successors_iff (hnext : ∀ a ∈ S, IsNextIn before S a (next? a)) {steps : Nat} {a : α}
    (ha : a ∈ S) (elements : List α) (least : ∀ b ∈ S, b = a ∨ before a b)
    (cover : ∀ b ∈ S, b ∈ elements) (few : elements.length ≤ steps + 1) {b : α} :
    b ∈ successors next? steps a ↔ b ∈ S := by
  obtain ⟨members, order⟩ := successors_in_order hnext steps ha
  constructor
  · intro hb
    exact (members b hb).1
  · intro hb
    rcases mem_successors_or_length hnext steps ha with all | long
    · exact all b hb (least b hb)
    · have nodup : (successors next? steps a).Nodup := by
        refine order.imp fun hab heq => ?_
        subst heq
        exact irrefl_of before _ hab
      have sub : successors next? steps a ⊆ elements := fun c hc => cover c (members c hc).1
      have same := (List.subperm_of_subset nodup sub).perm_of_length_le (by omega)
      exact same.mem_iff.2 (cover b hb)

end CnotRouting
