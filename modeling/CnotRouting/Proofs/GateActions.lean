import CnotRouting.Gates
import Mathlib.Algebra.Ring.Basic
import Mathlib.Tactic.LinearCombination
import Mathlib.Tactic.Ring

/-!
# The action of gates on state vectors

A state of `n` lines gives each string of `n` bits an amplitude in a commutative ring. A gate puts a
two by two matrix on its target lines wherever its controls fire. The matrices of NOT and of
Hadamard are fixed, where the ring supplies a root of one half; those of all other kinds are any.
The file ends with the identities of Hadamards and CNOTs that routes are built on.
-/

namespace CnotRouting

universe u

/-- A bit for each of `n` lines. -/
abbrev BitString (n : Nat) := Fin n → Bool

namespace BitString

variable {n : Nat}

/-- The bit of a line. A line outside the string reads 0. -/
def bit (x : BitString n) (q : Nat) : Bool := if h : q < n then x ⟨q, h⟩ else false

/-- The string with the bit of one line replaced. -/
def put (x : BitString n) (q : Nat) (b : Bool) : BitString n := fun i => if i.val = q then b else x i

/-- The string with the bit of one line flipped. -/
def flip (x : BitString n) (q : Nat) : BitString n := x.put q (!x.bit q)

/-- The string with the bit of `t` flipped if the bit of `c` is 1. -/
def flipIf (x : BitString n) (c t : Nat) : BitString n := if x.bit c then x.flip t else x

theorem bit_of_lt (x : BitString n) {q : Nat} (h : q < n) : x.bit q = x ⟨q, h⟩ := by
  simp [bit, h]

theorem ext_bit {x y : BitString n} (h : ∀ q < n, x.bit q = y.bit q) : x = y := by
  funext i
  simpa [bit] using h i i.isLt

theorem bit_put_self (x : BitString n) {q : Nat} (h : q < n) (b : Bool) : (x.put q b).bit q = b := by
  simp [bit, put, h]

@[simp] theorem bit_put_ne (x : BitString n) {q r : Nat} (h : r ≠ q) (b : Bool) :
    (x.put q b).bit r = x.bit r := by
  simp [bit, put, h]

@[simp] theorem put_put_self (x : BitString n) (q : Nat) (a b : Bool) :
    (x.put q a).put q b = x.put q b := by
  funext i
  by_cases h : i.val = q <;> simp [put, h]

theorem put_comm (x : BitString n) {q r : Nat} (h : q ≠ r) (a b : Bool) :
    (x.put q a).put r b = (x.put r b).put q a := by
  funext i
  by_cases hq : i.val = q
  · simp [put, hq, h]
  · simp [put, hq]

/-- Putting the bit that is there changes nothing. -/
theorem put_eq_self (x : BitString n) {q : Nat} {b : Bool} (h : x.bit q = b) : x.put q b = x := by
  funext i
  by_cases hq : i.val = q
  · subst hq
    simpa [put, bit] using h.symm
  · simp [put, hq]

@[simp] theorem bit_flip_ne (x : BitString n) {q r : Nat} (h : r ≠ q) :
    (x.flip q).bit r = x.bit r :=
  x.bit_put_ne h _

theorem bit_flip (x : BitString n) {q r : Nat} (h : q < n) :
    (x.flip q).bit r = (x.bit r ^^ decide (r = q)) := by
  by_cases hr : r = q
  · subst hr
    simp [flip, x.bit_put_self h]
  · simp [hr]

theorem bit_flipIf (x : BitString n) {c t r : Nat} (h : t < n) :
    (x.flipIf c t).bit r = (x.bit r ^^ (x.bit c && decide (r = t))) := by
  by_cases hc : x.bit c = true
  · simp [flipIf, hc, x.bit_flip h]
  · simp [flipIf, hc]

end BitString

/-- An amplitude for each string of `n` bits. -/
abbrev StateVector (R : Type u) (n : Nat) := BitString n → R

/-- The matrices that the kinds of gates stand for: a root of one half for the Hadamard, and any
matrix for every kind other than NOT and Hadamard. -/
structure GateMatrices (R : Type u) [CommRing R] where
  root : R
  two_mul_root : 2 * root * root = 1
  other : GateKind → Bool → Bool → R

namespace GateMatrices

variable {R : Type u} [CommRing R] {n : Nat}

/-- The matrix of a kind, by row and column. -/
def ofKind (m : GateMatrices R) : GateKind → Bool → Bool → R
  | .toffoli => fun a b => if a = b then 0 else 1
  | .hadamard => fun a b => if a && b then -m.root else m.root
  | k => m.other k

end GateMatrices

/-- The matrix `u` on line `q` of a state. -/
def StateVector.onLine {R : Type u} [CommRing R] {n : Nat} (u : Bool → Bool → R) (q : Nat)
    (ψ : StateVector R n) : StateVector R n := fun x =>
  u (x.bit q) false * ψ (x.put q false) + u (x.bit q) true * ψ (x.put q true)

/-- Whether every control of a gate fires. -/
def Gate.fires (g : Gate) {n : Nat} (x : BitString n) : Bool :=
  g.controls.all fun c => x.bit c.line == c.positive

/-- The state after a gate. -/
def Gate.act {R : Type u} [CommRing R] {n : Nat} (m : GateMatrices R) (g : Gate)
    (ψ : StateVector R n) : StateVector R n := fun x =>
  if g.fires x then g.targets.foldr (StateVector.onLine (m.ofKind g.kind)) ψ x else ψ x

/-- The state after a run of gates in program order. -/
def actAll {R : Type u} [CommRing R] {n : Nat} (m : GateMatrices R) (gates : List Gate)
    (ψ : StateVector R n) : StateVector R n := gates.foldl (fun ψ g => g.act m ψ) ψ

section

variable {R : Type u} [CommRing R] {n : Nat} (m : GateMatrices R)

@[simp] theorem actAll_nil (ψ : StateVector R n) : actAll m [] ψ = ψ := rfl

@[simp] theorem actAll_cons (g : Gate) (gates : List Gate) (ψ : StateVector R n) :
    actAll m (g :: gates) ψ = actAll m gates (g.act m ψ) := rfl

@[simp] theorem actAll_append (gates more : List Gate) (ψ : StateVector R n) :
    actAll m (gates ++ more) ψ = actAll m more (actAll m gates ψ) := by
  simp [actAll]

namespace Gate

/-- A NOT of one line under any controls flips the line where they all fire. -/
theorem act_toffoli (controls : List Control) (t : Nat) (ψ : StateVector R n) (x : BitString n) :
    (toffoli controls t).act m ψ x =
      ψ (if (toffoli controls t).fires x then x.flip t else x) := by
  have once : (toffoli controls t).act m ψ x =
      if (toffoli controls t).fires x then StateVector.onLine (m.ofKind .toffoli) t ψ x else ψ x := rfl
  rw [once]
  split
  · cases hb : x.bit t <;> simp [StateVector.onLine, GateMatrices.ofKind, BitString.flip, hb]
  · rfl

theorem act_not (t : Nat) (ψ : StateVector R n) (x : BitString n) :
    (Gate.not t).act m ψ x = ψ (x.flip t) :=
  act_toffoli m [] t ψ x

theorem act_cnot (c t : Nat) (ψ : StateVector R n) (x : BitString n) :
    (cnot c t).act m ψ x = ψ (x.flipIf c t) := by
  rw [cnot, act_toffoli]
  simp [fires, toffoli, BitString.flipIf]

theorem act_hadamard (q : Nat) (ψ : StateVector R n) (x : BitString n) :
    (hadamard q).act m ψ x =
      m.root * ψ (x.put q false) + (if x.bit q then -m.root else m.root) * ψ (x.put q true) := by
  simp [act, hadamard, fires, StateVector.onLine, GateMatrices.ofKind]

/-- Two Hadamards on one line cancel. -/
theorem hadamard_hadamard {q : Nat} (hq : q < n) (ψ : StateVector R n) :
    (hadamard q).act m ((hadamard q).act m ψ) = ψ := by
  funext x
  have h := m.two_mul_root
  simp only [act_hadamard, BitString.put_put_self, BitString.bit_put_self x hq]
  cases hb : x.bit q
  · simp only [Bool.false_eq_true, if_false, if_true, x.put_eq_self hb]
    linear_combination (ψ x) * h
  · simp only [Bool.false_eq_true, if_false, if_true, x.put_eq_self hb]
    linear_combination (ψ x) * h

theorem hadamard_comm (p q : Nat) (ψ : StateVector R n) :
    (hadamard p).act m ((hadamard q).act m ψ) = (hadamard q).act m ((hadamard p).act m ψ) := by
  by_cases h : p = q
  · rw [h]
  · funext x
    simp only [act_hadamard, BitString.bit_put_ne x h, BitString.bit_put_ne x (Ne.symm h),
      x.put_comm h]
    ring

/-- A Hadamard commutes with a CNOT on other lines. -/
theorem hadamard_cnot_comm {q c t : Nat} (hc : q ≠ c) (ht : q ≠ t) (ψ : StateVector R n) :
    (hadamard q).act m ((cnot c t).act m ψ) = (cnot c t).act m ((hadamard q).act m ψ) := by
  funext x
  have moved : ∀ b, (x.put q b).flipIf c t = (x.flipIf c t).put q b := by
    intro b
    simp only [BitString.flipIf, BitString.bit_put_ne x (Ne.symm hc)]
    split
    · rw [BitString.flip, BitString.bit_put_ne x (Ne.symm ht), BitString.flip, x.put_comm ht]
    · rfl
  have kept : (x.flipIf c t).bit q = x.bit q := by
    simp only [BitString.flipIf]
    split
    · exact x.bit_flip_ne ht
    · rfl
  simp only [act_hadamard, act_cnot, moved, kept]

/-- Between two Hadamards on its target a CNOT changes the sign where both its lines are 1. -/
theorem hadamard_cnot_hadamard {c t : Nat} (hct : c ≠ t) (ht : t < n) (ψ : StateVector R n)
    (x : BitString n) :
    (hadamard t).act m ((cnot c t).act m ((hadamard t).act m ψ)) x =
      if x.bit c && x.bit t then -ψ x else ψ x := by
  have h := m.two_mul_root
  simp only [act_hadamard, act_cnot, BitString.flipIf, BitString.flip, BitString.bit_put_ne x hct]
  cases hc : x.bit c <;> cases hb : x.bit t <;>
    simp only [hb, Bool.false_eq_true, if_false, if_true, BitString.put_put_self,
      x.put_eq_self hb, BitString.bit_put_self _ ht, Bool.not_true, Bool.not_false, Bool.and_true,
      Bool.and_false]
  · linear_combination (ψ x) * h
  · linear_combination (ψ x) * h
  · linear_combination (ψ x) * h
  · linear_combination -(ψ x) * h

/-- Hadamards on both lines before and after a CNOT turn it around. -/
theorem turned_cnot {a b : Nat} (hab : a ≠ b) (ha : a < n) (hb : b < n) (ψ : StateVector R n) :
    actAll m [hadamard a, hadamard b, cnot a b, hadamard a, hadamard b] ψ = (cnot b a).act m ψ := by
  have signs : ∀ φ : StateVector R n,
      (hadamard b).act m ((cnot a b).act m ((hadamard b).act m φ)) =
        (hadamard a).act m ((cnot b a).act m ((hadamard a).act m φ)) := by
    intro φ
    funext x
    rw [hadamard_cnot_hadamard m hab hb, hadamard_cnot_hadamard m hab.symm ha, Bool.and_comm]
  simp only [actAll_cons, actAll_nil]
  rw [hadamard_comm m b a, signs, hadamard_hadamard m ha, hadamard_hadamard m ha]

/-- Two equal CNOTs in a row cancel. -/
theorem cnot_cnot {c t : Nat} (hct : c ≠ t) (ht : t < n) (ψ : StateVector R n) :
    (cnot c t).act m ((cnot c t).act m ψ) = ψ := by
  funext x
  simp only [act_cnot]
  congr 1
  refine BitString.ext_bit fun r _ => ?_
  simp [BitString.bit_flipIf _ ht, hct]

/-- CNOTs commute when neither has the other's target as its control. -/
theorem cnot_comm {a b c t : Nat} (hat : a ≠ t) (hcb : c ≠ b) (hb : b < n) (ht : t < n)
    (ψ : StateVector R n) :
    (cnot a b).act m ((cnot c t).act m ψ) = (cnot c t).act m ((cnot a b).act m ψ) := by
  funext x
  simp only [act_cnot]
  congr 1
  refine BitString.ext_bit fun r _ => ?_
  simp only [BitString.bit_flipIf _ hb, BitString.bit_flipIf _ ht, hat, hcb, decide_false,
    Bool.and_false, Bool.xor_false, Bool.xor_right_comm]

end Gate

end

end CnotRouting
