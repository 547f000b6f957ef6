import Mathlib.Data.List.Forall2

/-!
# Checked steps over lists

A list is taken through a function that may fail. The whole succeeds exactly if every element does,
and the results are those of the elements in order.
-/

namespace CnotRouting

universe u

variable {ε : Type} {α β : Type u}

theorem ok_of_toOption {x : Except ε α} {a : α} (h : x.toOption = some a) :
    x = .ok a := by
  cases x with
  | error e => cases h
  | ok b =>
    cases h
    rfl

theorem bind_eq_ok_iff {x : Except ε α} {f : α → Except ε β} {b : β} :
    (x >>= f) = .ok b ↔ ∃ a, x = .ok a ∧ f a = .ok b := by
  cases x with
  | error e => simp [bind, Except.bind]
  | ok a => simp [bind, Except.bind]

theorem bind_eq_error_iff {x : Except ε α} {f : α → Except ε β} {e : ε} :
    (x >>= f) = .error e ↔ x = .error e ∨ ∃ a, x = .ok a ∧ f a = .error e := by
  cases x with
  | error e' => simp [bind, Except.bind]
  | ok a => simp [bind, Except.bind]

theorem bind_of_ok {x : Except ε α} {a : α} (h : x = .ok a) (f : α → Except ε β) :
    (x >>= f) = f a := by
  rw [h]
  rfl

theorem bind_of_error {x : Except ε α} {e : ε} (h : x = .error e) (f : α → Except ε β) :
    (x >>= f) = .error e := by
  rw [h]
  rfl

theorem mapError_eq_ok_iff {δ : Type} {f : ε → δ} {x : Except ε α} {a : α} :
    x.mapError f = .ok a ↔ x = .ok a := by
  cases x <;> simp [Except.mapError]

theorem mapM_eq_ok_iff {f : α → Except ε β} {l : List α} {bs : List β} :
    l.mapM f = .ok bs ↔ List.Forall₂ (fun a b => f a = .ok b) l bs := by
  induction l generalizing bs with
  | nil => cases bs <;> simp [pure, Except.pure]
  | cons a l ih =>
    rw [List.mapM_cons, bind_eq_ok_iff]
    constructor
    · rintro ⟨b, hb, h⟩
      obtain ⟨tail, ht, h⟩ := bind_eq_ok_iff.1 h
      cases h
      exact .cons hb (ih.1 ht)
    · rintro (_ | ⟨hb, ht⟩)
      exact ⟨_, hb, bind_eq_ok_iff.2 ⟨_, ih.2 ht, rfl⟩⟩

theorem mapM_eq_ok_map {f : α → Except ε β} {g : α → β} {l : List α}
    (h : ∀ a ∈ l, f a = .ok (g a)) : l.mapM f = .ok (l.map g) := by
  rw [mapM_eq_ok_iff]
  induction l with
  | nil => exact .nil
  | cons a l ih =>
    obtain ⟨ha, hl⟩ := List.forall_mem_cons.1 h
    exact .cons ha (ih hl)

theorem mapM_congr {f g : α → Except ε β} {l : List α} (h : ∀ a ∈ l, f a = g a) :
    l.mapM f = l.mapM g := by
  induction l with
  | nil => rfl
  | cons a l ih =>
    obtain ⟨ha, hl⟩ := List.forall_mem_cons.1 h
    rw [List.mapM_cons, List.mapM_cons, ha, ih hl]

/-- The first element that fails decides how the whole fails. -/
theorem mapM_eq_error {f : α → Except ε β} {before after : List α} {a : α} {e : ε}
    (h : ∀ b ∈ before, ∃ c, f b = .ok c) (ha : f a = .error e) :
    (before ++ a :: after).mapM f = .error e := by
  induction before with
  | nil => rw [List.nil_append, List.mapM_cons, bind_of_error ha]
  | cons b before ih =>
    obtain ⟨⟨c, hc⟩, htail⟩ := List.forall_mem_cons.1 h
    rw [List.cons_append, List.mapM_cons, bind_of_ok hc, bind_of_error (ih htail)]

/-- What every step keeps is kept by a run of steps that succeeds. -/
theorem foldlM_preserves {P : β → Prop} {f : β → α → Except ε β}
    (h : ∀ b a b', P b → f b a = .ok b' → P b') {l : List α} {b b' : β} (hb : P b)
    (run : l.foldlM f b = .ok b') : P b' := by
  induction l generalizing b with
  | nil =>
    cases run
    exact hb
  | cons a l ih =>
    rw [List.foldlM_cons] at run
    obtain ⟨next, step, run⟩ := bind_eq_ok_iff.1 run
    exact ih (h b a next hb step) run

theorem exists_forall₂ {P : α → β → Prop} {l : List α} (h : ∀ a ∈ l, ∃ b, P a b) :
    ∃ bs, List.Forall₂ P l bs := by
  induction l with
  | nil => exact ⟨[], .nil⟩
  | cons a l ih =>
    obtain ⟨⟨b, hb⟩, hl⟩ := List.forall_mem_cons.1 h
    obtain ⟨bs, hbs⟩ := ih hl
    exact ⟨b :: bs, .cons hb hbs⟩

theorem forall₂_getElem? {P : α → β → Prop} {l : List α} {bs : List β} (h : List.Forall₂ P l bs)
    {i : Nat} {a : α} (ha : l[i]? = some a) : ∃ b, bs[i]? = some b ∧ P a b := by
  induction h generalizing i with
  | nil => simp at ha
  | cons hab _ ih =>
    cases i with
    | zero =>
      obtain rfl : _ = a := by simpa using ha
      exact ⟨_, rfl, hab⟩
    | succ i => exact ih ha

/-- In a list of rows of equal length, position `v * n + w` is place `w` of row `v`. -/
theorem getElem?_flatMap_rows {f : α → List β} {n : Nat} {l : List α}
    (hf : ∀ a ∈ l, (f a).length = n) {v w : Nat} (hw : w < n) :
    (l.flatMap f)[v * n + w]? = l[v]?.bind fun a => (f a)[w]? := by
  induction l generalizing v with
  | nil => simp
  | cons a l ih =>
    have ha := hf a List.mem_cons_self
    rw [List.flatMap_cons]
    cases v with
    | zero => simp [List.getElem?_append_left, ha, hw]
    | succ v =>
      have shift : (v + 1) * n + w = v * n + w + (f a).length := by
        rw [ha, Nat.succ_mul]
        omega
      rw [shift, List.getElem?_append_right (by omega), Nat.add_sub_cancel,
        ih fun a' ha' => hf a' (List.mem_cons_of_mem a ha')]
      simp

theorem length_flatMap_rows {f : α → List β} {n : Nat} {l : List α}
    (hf : ∀ a ∈ l, (f a).length = n) : (l.flatMap f).length = l.length * n := by
  induction l with
  | nil => simp
  | cons a l ih =>
    rw [List.flatMap_cons, List.length_append, hf a List.mem_cons_self,
      ih fun a' ha' => hf a' (List.mem_cons_of_mem a ha'), List.length_cons, Nat.succ_mul, Nat.add_comm]

end CnotRouting
