import CnotRouting.JsonReading
import Mathlib.Data.List.TakeWhile

/-!
# Written numbers

A whole number is read from its digits. The reader of numbers takes up no more than the number: text
after it that does not go on with a number is left over.
-/

namespace CnotRouting.Json

/-- Text that does not go on with a number. -/
def EndsNumber (rest : List Char) : Prop :=
  ∀ c ∈ rest.head?, c.isDigit = false ∧ c ≠ '.' ∧ c ≠ 'e' ∧ c ≠ 'E'

section

variable {cs rest more : List Char}

theorem spanDigits_append (ends : EndsNumber more) (cs : List Char) :
    (cs ++ more).takeWhile Char.isDigit = cs.takeWhile Char.isDigit ∧
      (cs ++ more).dropWhile Char.isDigit = cs.dropWhile Char.isDigit ++ more := by
  induction cs with
  | nil =>
    cases more with
    | nil => simp
    | cons c more => simp [(ends c rfl).1]
  | cons c cs ih => by_cases digit : c.isDigit = true <;> simp [digit, ih]

theorem readDigits?_append (ends : EndsNumber more) {digits : List Char}
    (h : readDigits? cs = some (digits, rest)) :
    readDigits? (cs ++ more) = some (digits, rest ++ more) := by
  obtain ⟨taken, dropped⟩ := spanDigits_append ends cs
  rw [readDigits?] at h ⊢
  rw [taken, dropped]
  split at h
  · cases h
  · cases h
    rfl

theorem exists_digit_of_readDigits? {digits : List Char}
    (h : readDigits? cs = some (digits, rest)) : ∃ c tail, cs = c :: tail ∧ c.isDigit = true := by
  cases cs with
  | nil => cases h
  | cons c tail =>
    cases digit : c.isDigit with
    | true => exact ⟨c, tail, rfl, digit⟩
    | false => simp [readDigits?, digit] at h

theorem readFraction?_append (ends : EndsNumber more) {digits : List Char}
    (h : readFraction? cs = some (digits, rest)) :
    readFraction? (cs ++ more) = some (digits, rest ++ more) := by
  unfold readFraction? at h ⊢
  split at h
  · exact readDigits?_append ends h
  · rename_i noPoint
    cases h
    split
    · rename_i tail heq
      cases cs with
      | nil => exact absurd rfl (ends '.' (by simp_all)).2.1
      | cons c cs =>
        obtain ⟨rfl, -⟩ := List.cons.inj heq
        exact absurd rfl (noPoint cs)
    · rfl

/-- The sign of an exponent, and what follows it. -/
def exponentSign : List Char → Int × List Char
  | '-' :: rest => (-1, rest)
  | '+' :: rest => (1, rest)
  | rest => (1, rest)

theorem exponentSign_append {c : Char} (cs : List Char) :
    exponentSign (c :: cs ++ more) =
      ((exponentSign (c :: cs)).1, (exponentSign (c :: cs)).2 ++ more) := by
  rw [List.cons_append]
  unfold exponentSign
  split <;> split <;> simp_all

theorem readExponent?_cons {c : Char} (mark : c = 'e' ∨ c = 'E') (cs : List Char) :
    readExponent? (c :: cs) = (readDigits? (exponentSign cs).2).map fun (digits, rest) =>
      (some ((exponentSign cs).1 * (Nat.ofDigitChars 10 digits 0 : Int)), rest) :=
  if_pos mark

theorem readExponent?_cons_of_not {c : Char} (mark : ¬(c = 'e' ∨ c = 'E')) (cs : List Char) :
    readExponent? (c :: cs) = some (none, c :: cs) :=
  if_neg mark

theorem readExponent?_append (ends : EndsNumber more) {exponent : Option Int}
    (h : readExponent? cs = some (exponent, rest)) :
    readExponent? (cs ++ more) = some (exponent, rest ++ more) := by
  cases cs with
  | nil =>
    cases h
    cases more with
    | nil => rfl
    | cons c more =>
      obtain ⟨-, -, lower, upper⟩ := ends c rfl
      exact readExponent?_cons_of_not (by simp [lower, upper]) more
  | cons c cs =>
    by_cases mark : c = 'e' ∨ c = 'E'
    · rw [readExponent?_cons mark] at h
      obtain ⟨⟨digits, rest'⟩, hdigits, heq⟩ := Option.map_eq_some_iff.1 h
      cases heq
      cases cs with
      | nil => cases hdigits
      | cons d cs =>
        rw [List.cons_append, readExponent?_cons mark, exponentSign_append,
          readDigits?_append ends hdigits]
        rfl
    · rw [readExponent?_cons_of_not mark] at h
      cases h
      exact readExponent?_cons_of_not mark _

/-- The sign of a number, and what follows it. -/
def numberSign : List Char → Bool × List Char
  | '-' :: rest => (true, rest)
  | cs => (false, cs)

theorem numberSign_append {c : Char} (cs : List Char) :
    numberSign (c :: cs ++ more) =
      ((numberSign (c :: cs)).1, (numberSign (c :: cs)).2 ++ more) := by
  rw [List.cons_append]
  unfold numberSign
  split <;> split <;> simp_all

theorem numberSign_of_ne {c : Char} (h : c ≠ '-') (cs : List Char) :
    numberSign (c :: cs) = (false, c :: cs) := by
  unfold numberSign
  split
  · simp_all
  · rfl

/-- The number that digits and an exponent denote, with the text that is left. -/
def denoted? (negative : Bool) (whole fraction : List Char) (exponent : Option Int)
    (rest : List Char) : Option (Json × List Char) :=
  let digits := Nat.ofDigitChars 10 (whole ++ fraction) 0
  if fraction = [] ∧ exponent = none ∧ ¬(negative ∧ digits = 0) then
    some (.int (if negative then -(digits : Int) else digits), rest)
  else (floatOfDecimal? digits (exponent.getD 0 - fraction.length)).bind fun x =>
    some (.float (if negative then -x else x), rest)

theorem readNumber?_eq (cs : List Char) :
    readNumber? cs = (readDigits? (numberSign cs).2).bind fun (whole, rest) =>
      if whole.head? = some '0' ∧ whole.length ≠ 1 then none
      else (readFraction? rest).bind fun (fraction, rest) =>
        (readExponent? rest).bind fun (exponent, rest) =>
          denoted? (numberSign cs).1 whole fraction exponent rest :=
  rfl

theorem denoted?_append {negative : Bool} {whole fraction : List Char} {exponent : Option Int}
    {r : Json × List Char} (h : denoted? negative whole fraction exponent cs = some r) :
    denoted? negative whole fraction exponent (cs ++ more) = some (r.1, r.2 ++ more) := by
  simp only [denoted?] at h ⊢
  split at h
  · rename_i isWhole
    cases h
    rw [if_pos isWhole]
  · rename_i isWhole
    obtain ⟨x, hx, heq⟩ := Option.bind_eq_some_iff.1 h
    cases heq
    rw [if_neg isWhole, hx]
    rfl

/-- Text that does not go on with a number is left over. -/
theorem readNumber?_append (ends : EndsNumber more) {v : Json}
    (h : readNumber? cs = some (v, rest)) :
    readNumber? (cs ++ more) = some (v, rest ++ more) := by
  cases cs with
  | nil => cases h
  | cons c cs =>
    rw [readNumber?_eq] at h ⊢
    obtain ⟨⟨whole, afterWhole⟩, hwhole, h⟩ := Option.bind_eq_some_iff.1 h
    rw [numberSign_append, readDigits?_append ends hwhole, Option.bind_some]
    simp only at h ⊢
    split at h
    · cases h
    · rename_i plain
      obtain ⟨⟨fraction, afterFraction⟩, hfraction, h⟩ := Option.bind_eq_some_iff.1 h
      obtain ⟨⟨exponent, afterExponent⟩, hexponent, h⟩ := Option.bind_eq_some_iff.1 h
      rw [if_neg plain, readFraction?_append ends hfraction, Option.bind_some]
      simp only
      rw [readExponent?_append ends hexponent, Option.bind_some]
      exact denoted?_append h

/-- A number starts with a digit or with its sign. -/
theorem exists_of_readNumber? {r : Json × List Char} (h : readNumber? cs = some r) :
    ∃ c tail, cs = c :: tail ∧ (c = '-' ∨ c.isDigit = true) := by
  rw [readNumber?_eq] at h
  obtain ⟨whole, hwhole, -⟩ := Option.bind_eq_some_iff.1 h
  cases cs with
  | nil => cases hwhole
  | cons c tail =>
    refine ⟨c, tail, rfl, ?_⟩
    by_cases sign : c = '-'
    · exact .inl sign
    · rw [numberSign_of_ne sign] at hwhole
      obtain ⟨d, tail', heq, digit⟩ := exists_digit_of_readDigits? hwhole
      cases heq
      exact .inr digit

end

/-- No digits of a number but those of zero start with a zero. -/
theorem head?_toDigits {n : Nat} (h : 0 < n) : (Nat.toDigits 10 n).head? ≠ some '0' := by
  induction n using Nat.strongRecOn with
  | _ n ih =>
    by_cases small : n < 10
    · rw [Nat.toDigits_of_lt_base small, List.head?_cons]
      have : ∀ d < 10, 0 < d → some (Nat.digitChar d) ≠ some '0' := by decide
      exact this n small h
    · have first := ih (n / 10) (by omega) (by omega)
      obtain ⟨c, tail, digits⟩ :=
        List.exists_cons_of_ne_nil (Nat.toDigits_ne_nil (n := n / 10) (b := 10))
      rw [digits] at first
      rwa [Nat.toDigits_of_base_le (by decide) (by omega), digits]

theorem readDigits?_toDigits (n : Nat) :
    readDigits? (Nat.toDigits 10 n) = some (Nat.toDigits 10 n, []) := by
  have digit : ∀ c ∈ Nat.toDigits 10 n, c.isDigit = true := fun c hc =>
    Nat.isDigit_of_mem_toDigits (by decide) (by decide) hc
  rw [readDigits?, List.takeWhile_eq_self_iff.2 digit, List.dropWhile_eq_nil_iff.2 digit]
  split
  · rename_i none
    exact absurd none Nat.toDigits_ne_nil
  · rfl

/-- The digits of a number, after its sign if it has one, are read as that number. -/
theorem readNumber?_of_digits {cs : List Char} {negative : Bool} {n : Nat}
    (sign : numberSign cs = (negative, Nat.toDigits 10 n)) (plain : ¬(negative = true ∧ n = 0)) :
    readNumber? cs = some (.int (if negative then -(n : Int) else n), []) := by
  have value : Nat.ofDigitChars 10 (Nat.toDigits 10 n) 0 = n :=
    Nat.ofDigitChars_toDigits (by decide) (by decide)
  have first : ¬((Nat.toDigits 10 n).head? = some '0' ∧ (Nat.toDigits 10 n).length ≠ 1) := by
    rintro ⟨zero, long⟩
    rcases Nat.eq_zero_or_pos n with rfl | pos
    · exact long rfl
    · exact head?_toDigits pos zero
  rw [readNumber?_eq, sign]
  simp only [readDigits?_toDigits, Option.bind_some]
  rw [if_neg first]
  simp only [readFraction?, readExponent?, Option.bind_some, denoted?, List.append_nil, value]
  rw [if_pos ⟨trivial, trivial, plain⟩]

theorem readNumber?_int (n : Int) : readNumber? n.repr.toList = some (.int n, []) := by
  cases n with
  | ofNat n =>
    have digits : (Int.ofNat n).repr.toList = Nat.toDigits 10 n := Nat.toList_repr
    obtain ⟨c, tail, hcons⟩ := List.exists_cons_of_ne_nil (Nat.toDigits_ne_nil (n := n) (b := 10))
    have digit : c.isDigit = true :=
      Nat.isDigit_of_mem_toDigits (by decide) (by decide) (hcons ▸ List.mem_cons_self)
    have sign : numberSign (Nat.toDigits 10 n) = (false, Nat.toDigits 10 n) := by
      rw [hcons]
      exact numberSign_of_ne (by rintro rfl; cases digit) tail
    rw [digits, readNumber?_of_digits sign (by simp)]
    rfl
  | negSucc n =>
    have digits : (Int.negSucc n).repr.toList = '-' :: Nat.toDigits 10 (n + 1) := by
      rw [Int.repr, String.toList_append, Nat.toList_repr]
      rfl
    rw [digits, readNumber?_of_digits (n := n + 1) rfl (by simp)]
    rfl

end CnotRouting.Json
