import CnotRouting.Proofs.GateActions
import CnotRouting.Proofs.PlacedCircuits

/-!
# The action of placed gates on state vectors

A placement picks some lines of a long bit string for the lines of a short one. For each setting of
the other lines, a state of the long strings has a slice that is a state of the short ones. A gate
at its sites does to every slice what it does on its own lines, so the other lines are left alone.
-/

namespace CnotRouting

universe u

variable {n l : Nat} {p : Placement}

/-- The string with the bits of `y` on the sites of a placement. -/
def BitString.fill (x : BitString n) (p : Placement) (y : BitString l) : BitString n := fun i =>
  if i.val ∈ p.sites then y.bit (p.sites.idxOf i.val) else x i

/-- The amplitudes of a state where the lines without a site are as in `x`. -/
def StateVector.slice {R : Type u} (ψ : StateVector R n) (p : Placement) (l : Nat)
    (x : BitString n) : StateVector R l := fun y => ψ (x.fill p y)

namespace Placement.Fits

variable (h : p.Fits l n)
include h

theorem bit_fill (x : BitString n) (y : BitString l) {q : Nat} (hq : q < l) :
    (x.fill p y).bit (p.siteOf q) = y.bit q := by
  rw [BitString.bit_of_lt _ (h.siteOf_lt hq), BitString.fill]
  simp only [h.siteOf_mem hq, if_true, h.idxOf_siteOf hq]

theorem put_fill (x : BitString n) (y : BitString l) {q : Nat} (hq : q < l) (b : Bool) :
    (x.fill p y).put (p.siteOf q) b = x.fill p (y.put q b) := by
  funext i
  by_cases hi : i.val = p.siteOf q
  · simp [BitString.put, BitString.fill, hi, h.siteOf_mem hq, h.idxOf_siteOf hq,
      BitString.bit, hq]
  · simp only [BitString.put, BitString.fill, hi, if_false]
    split
    · rename_i hmem
      have other : p.sites.idxOf i.val ≠ q := by
        intro heq
        apply hi
        obtain ⟨hs, hsite⟩ := h.siteOf_eq hq
        rw [hsite]
        subst heq
        exact (List.getElem_idxOf hs).symm
      exact (BitString.bit_put_ne y other b).symm
    · rfl

variable {R : Type u} [CommRing R] (m : GateMatrices R)

theorem fires_relabel {g : Gate} (hg : ∀ q ∈ g.lines, q < l) (x : BitString n) (y : BitString l) :
    (g.relabel p.siteOf).fires (x.fill p y) = g.fires y := by
  have each : ∀ c ∈ g.controls, ((x.fill p y).bit (p.siteOf c.line) == c.positive) =
      (y.bit c.line == c.positive) := by
    intro c hc
    have bound : c.line < l := hg c.line (List.mem_append_left _ (List.mem_map_of_mem hc))
    rw [h.bit_fill x y bound]
  simp only [Gate.fires, Gate.relabel, List.all_map, Function.comp_def]
  rw [Bool.eq_iff_iff, List.all_eq_true, List.all_eq_true]
  exact forall₂_congr fun c hc => by rw [each c hc]

theorem slice_onLine (u : Bool → Bool → R) {q : Nat} (hq : q < l) (ψ : StateVector R n)
    (x : BitString n) :
    (StateVector.onLine u (p.siteOf q) ψ).slice p l x = StateVector.onLine u q (ψ.slice p l x) := by
  funext y
  simp only [StateVector.slice, StateVector.onLine, h.bit_fill x y hq, h.put_fill x y hq]

theorem slice_onLines (u : Bool → Bool → R) {targets : List Nat} (ht : ∀ q ∈ targets, q < l)
    (ψ : StateVector R n) (x : BitString n) :
    ((targets.map p.siteOf).foldr (StateVector.onLine u) ψ).slice p l x =
      targets.foldr (StateVector.onLine u) (ψ.slice p l x) := by
  induction targets with
  | nil => rfl
  | cons q targets ih =>
    obtain ⟨hq, htail⟩ := List.forall_mem_cons.1 ht
    rw [List.map_cons, List.foldr_cons, List.foldr_cons, h.slice_onLine u hq, ih htail]

/-- A gate at its sites acts on every slice as it does on its own lines. -/
theorem slice_act {g : Gate} (hg : g.fault? l = none) (ψ : StateVector R n) (x : BitString n) :
    ((g.relabel p.siteOf).act m ψ).slice p l x = g.act m (ψ.slice p l x) := by
  obtain ⟨-, -, bound⟩ := Gate.fault?_eq_none_iff.1 hg
  have targets := h.slice_onLines (m.ofKind g.kind)
    (fun q hq => bound q (List.mem_append_right _ hq)) ψ x
  funext y
  have fires := h.fires_relabel bound x y
  simp only [StateVector.slice, Gate.act] at targets ⊢
  rw [fires]
  split
  · exact congrFun targets y
  · rfl

/-- A placed run of gates acts on every slice as it does on its own lines. -/
theorem slice_actAll {gates : List Gate} (hg : ∀ g ∈ gates, g.fault? l = none)
    (ψ : StateVector R n) (x : BitString n) :
    (actAll m (gates.map (·.relabel p.siteOf)) ψ).slice p l x = actAll m gates (ψ.slice p l x) := by
  induction gates generalizing ψ with
  | nil => rfl
  | cons g gates ih =>
    obtain ⟨hfirst, htail⟩ := List.forall_mem_cons.1 hg
    rw [List.map_cons, actAll_cons, actAll_cons, ih htail, h.slice_act m hfirst]

end Placement.Fits

end CnotRouting
