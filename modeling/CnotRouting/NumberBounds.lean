/-! # Bounds of numbers

Texts, records and searches keep to numbers of a fixed range. -/

namespace CnotRouting

/-- Numbers of lines and qubits, costs and roots stay below this bound. -/
def wordBound : Nat := 1 <<< 32

/-- Counts and sums of costs stay below this bound. -/
def countBound : Nat := 1 <<< 64

/-- A list longer than this bound cannot be kept. -/
def lengthBound : Nat := 1 <<< 63

end CnotRouting
