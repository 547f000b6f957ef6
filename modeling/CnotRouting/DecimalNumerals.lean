/-! # Decimal numerals

A numeral is a non-empty run of the digits 0 to 9, with an optional plus sign before it and any
number of leading zeros. The written form of a number has neither sign nor leading zeros. -/

namespace CnotRouting

/-- A word without its plus sign, if it starts with one. -/
def unsigned : List Char → List Char
  | '+' :: rest => rest
  | cs => cs

/-- The number below `bound` that a word denotes. -/
def numeral? (bound : Nat) (word : String) : Option Nat :=
  let digits := unsigned word.toList
  if digits ≠ [] ∧ digits.all Char.isDigit ∧ Nat.ofDigitChars 10 digits 0 < bound then
    some (Nat.ofDigitChars 10 digits 0)
  else none

theorem unsigned_of_isDigit {cs : List Char} (h : ∀ c ∈ cs, c.isDigit = true) :
    unsigned cs = cs := by
  unfold unsigned
  split
  · exact absurd (h '+' (by simp)) (by decide)
  · rfl

theorem lt_of_numeral? {bound n : Nat} {word : String} (h : numeral? bound word = some n) :
    n < bound := by
  simp only [numeral?] at h
  split at h
  · rename_i accepted
    cases h
    exact accepted.2.2
  · cases h

/-- The written form of a number below the bound denotes that number. -/
theorem numeral?_repr {bound n : Nat} (h : n < bound) : numeral? bound n.repr = some n := by
  have digit : ∀ c ∈ Nat.toDigits 10 n, c.isDigit = true := fun c hc =>
    Nat.isDigit_of_mem_toDigits (by decide) (by decide) hc
  have value : Nat.ofDigitChars 10 (Nat.toDigits 10 n) 0 = n :=
    Nat.ofDigitChars_toDigits (by decide) (by decide)
  have nonempty : Nat.toDigits 10 n ≠ [] := Nat.toDigits_ne_nil
  simpa [numeral?, Nat.toList_repr, unsigned_of_isDigit digit, value, nonempty, h] using digit

end CnotRouting
