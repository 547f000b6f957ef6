import CnotRouting.GraphComponents
import Mathlib.Logic.Relation

/-!
# Classes of a disjoint-set structure

A disjoint-set structure is faithful if two numbers are in one class exactly if the unions made join
them, in one direction or the other and over any others. The labels are: a union gives the ends of
its pair one label and leaves no two numbers with different labels that had one, and every label is
joined to the number that carries it.
-/

namespace CnotRouting

open Relation

/-- `equiv` decides the equivalence closure of the unions made. -/
def DisjointSets.IsFaithful (sets : DisjointSets) : Prop :=
  ∀ (n : Nat) (pairs : List (Nat × Nat)), (∀ p ∈ pairs, p.1 < n ∧ p.2 < n) →
    ∀ v < n, ∀ w < n, (sets.equiv (sets.unions n pairs) v w = true ↔
      EqvGen (fun a b => (a, b) ∈ pairs) v w)

/-! ### Labels that stay equal -/

/-- Whether two numbers have one label. -/
def SameLabel (labels : List Nat) (v w : Nat) : Prop := labels.getD v v = labels.getD w w

theorem getD_joinLabels {labels : List Nat} {v w q : Nat} (hq : q < labels.length) :
    (joinLabels labels v w).getD q q =
      if labels.getD q q = max (labels.getD v v) (labels.getD w w) then
        min (labels.getD v v) (labels.getD w w) else labels.getD q q := by
  simp [joinLabels, hq]

@[simp] theorem length_joinLabels (labels : List Nat) (v w : Nat) :
    (joinLabels labels v w).length = labels.length := by
  simp [joinLabels]

theorem sameLabel_joinLabels {labels : List Nat} {v w : Nat} (hv : v < labels.length)
    (hw : w < labels.length) : SameLabel (joinLabels labels v w) v w := by
  rw [SameLabel, getD_joinLabels hv, getD_joinLabels hw]
  split <;> split <;> omega

theorem SameLabel.joinLabels {labels : List Nat} {p q : Nat} (h : SameLabel labels p q)
    (hp : p < labels.length) (hq : q < labels.length) (v w : Nat) :
    SameLabel (joinLabels labels v w) p q := by
  rw [SameLabel, getD_joinLabels hp, getD_joinLabels hq, h]

/-- The labels after the unions of the given pairs. -/
def joinAll (labels : List Nat) (pairs : List (Nat × Nat)) : List Nat :=
  pairs.foldl (fun labels p => joinLabels labels p.1 p.2) labels

theorem SameLabel.joinAll {labels : List Nat} {p q : Nat} (h : SameLabel labels p q)
    (hp : p < labels.length) (hq : q < labels.length) (pairs : List (Nat × Nat)) :
    SameLabel (joinAll labels pairs) p q := by
  induction pairs generalizing labels with
  | nil => exact h
  | cons e pairs ih =>
    apply ih (h.joinLabels hp hq e.1 e.2)
    · simpa using hp
    · simpa using hq

/-- The numbers of every pair that is joined have one label in the end. -/
theorem sameLabel_of_mem {pairs : List (Nat × Nat)} {labels : List Nat} {v w : Nat}
    (hvw : (v, w) ∈ pairs) (hv : v < labels.length) (hw : w < labels.length) :
    SameLabel (joinAll labels pairs) v w := by
  induction pairs generalizing labels with
  | nil => cases hvw
  | cons e pairs ih =>
    rcases List.mem_cons.1 hvw with rfl | hvw
    · apply (sameLabel_joinLabels hv hw).joinAll
      · simpa using hv
      · simpa using hw
    · apply ih hvw
      · simpa using hv
      · simpa using hw

/-! ### Labels of joined numbers -/

/-- A label for each of `n` numbers that a relation joins to its number. -/
structure IsLabelling (r : Nat → Nat → Prop) (n : Nat) (labels : List Nat) : Prop where
  length : labels.length = n
  joined : ∀ q < n, EqvGen r q (labels.getD q q)

namespace IsLabelling

variable {r : Nat → Nat → Prop} {n : Nat} {labels : List Nat}

theorem range (r : Nat → Nat → Prop) (n : Nat) : IsLabelling r n (List.range n) := by
  refine ⟨List.length_range, fun q hq => ?_⟩
  have own : (List.range n).getD q q = q := by simp [hq]
  rw [own]
  exact .refl q

theorem joinLabels (h : IsLabelling r n labels) {v w : Nat} (hv : v < n) (hw : w < n)
    (hvw : r v w) : IsLabelling r n (joinLabels labels v w) := by
  have across : EqvGen r (labels.getD v v) (labels.getD w w) :=
    .trans _ _ _ (.symm _ _ (h.joined v hv)) (.trans _ _ _ (.rel _ _ hvw) (h.joined w hw))
  have ends : EqvGen r (max (labels.getD v v) (labels.getD w w))
      (min (labels.getD v v) (labels.getD w w)) := by
    rcases Nat.le_total (labels.getD v v) (labels.getD w w) with hle | hle
    · rw [Nat.max_eq_right hle, Nat.min_eq_left hle]
      exact .symm _ _ across
    · rw [Nat.max_eq_left hle, Nat.min_eq_right hle]
      exact across
  refine ⟨by simpa using h.length, fun q hq => ?_⟩
  have before := h.joined q hq
  rw [getD_joinLabels (h.length ▸ hq)]
  split
  · rename_i taken
    rw [taken] at before
    exact .trans _ _ _ before ends
  · exact before

theorem joinAll (h : IsLabelling r n labels) {pairs : List (Nat × Nat)}
    (inside : ∀ p ∈ pairs, p.1 < n ∧ p.2 < n) (hpairs : ∀ p ∈ pairs, r p.1 p.2) :
    IsLabelling r n (joinAll labels pairs) := by
  induction pairs generalizing labels with
  | nil => exact h
  | cons p pairs ih =>
    obtain ⟨⟨hv, hw⟩, inside⟩ := List.forall_mem_cons.1 inside
    obtain ⟨hp, hpairs⟩ := List.forall_mem_cons.1 hpairs
    exact ih (h.joinLabels hv hw hp) inside hpairs

end IsLabelling

theorem DisjointSets.labels_isFaithful : labels.IsFaithful := by
  intro n pairs inside v hv w hw
  have equiv_iff : labels.equiv (labels.unions n pairs) v w = true ↔
      SameLabel (joinAll (List.range n) pairs) v w := beq_iff_eq
  rw [equiv_iff]
  constructor
  · intro same
    have labelling := (IsLabelling.range (fun a b => (a, b) ∈ pairs) n).joinAll inside
      fun p hp => hp
    have from_w := labelling.joined w hw
    rw [← same] at from_w
    exact .trans _ _ _ (labelling.joined v hv) (.symm _ _ from_w)
  · intro joined
    clear equiv_iff hv hw
    induction joined with
    | rel a b hab =>
      obtain ⟨ha, hb⟩ := inside _ hab
      exact sameLabel_of_mem hab (by simpa using ha) (by simpa using hb)
    | refl => rfl
    | symm _ _ _ ih => exact ih.symm
    | trans _ _ _ _ _ first second => exact first.trans second

end CnotRouting
