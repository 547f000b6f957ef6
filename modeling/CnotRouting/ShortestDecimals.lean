/-! # Shortest decimals

A floating-point number is written with the fewest decimal digits that read back to it, and of these
with the digits nearest to it. A positive number `m * 2 ^ e` is what all reals of an interval round
to. In units of `2 ^ (e - 2)` the interval reaches from `4 * m - 2` to `4 * m + 2`, or only from
`4 * m - 1` if the next number below is closer; its ends belong to it if `m` is even. The digits are
searched on grids of decimals that become finer by a factor of ten. -/

namespace CnotRouting

/-- A positive number `m * 2 ^ e`. The next number below it is at half the distance of the next one
above if it is `closeBelow`. -/
structure BinaryNumber where
  m : Nat
  e : Int
  closeBelow : Bool

structure Decimal where
  digits : Nat
  exponent : Int
  deriving DecidableEq

namespace BinaryNumber

/-- One unit of the interval, measured on the grid of multiples of `10 ^ k`, as a fraction. -/
def unit (b : BinaryNumber) (k : Int) : Nat × Nat :=
  ((1 <<< (b.e - 2).toNat) * Nat.pow 10 (-k).toNat, (1 <<< (2 - b.e).toNat) * Nat.pow 10 k.toNat)

/-- Whether `d * 10 ^ k` lies in the interval of the reals that round to the number. -/
def covers (b : BinaryNumber) (k : Int) (d : Nat) : Bool :=
  let (num, den) := b.unit k
  let low := (4 * b.m - if b.closeBelow then 1 else 2) * num
  let high := (4 * b.m + 2) * num
  if b.m % 2 = 0 then low ≤ d * den && d * den ≤ high else low < d * den && d * den < high

/-- The multiple of `10 ^ k` that is nearest to the number among those that round to it. It is one
of the two neighbours of the number on the grid; of two at the same distance the even one. -/
def onGrid? (b : BinaryNumber) (k : Int) : Option Decimal :=
  let (num, den) := b.unit k
  let d := 4 * b.m * num / den
  let rest := 4 * b.m * num % den
  let first := if 2 * rest < den || (2 * rest == den && d % 2 == 0) then d else d + 1
  let second := if first = d then d + 1 else d
  ([first, second].find? (b.covers k)).map (⟨·, k⟩)

/-- The decimal of fewest digits that reads back to the number. -/
def shortest (b : BinaryNumber) : Decimal :=
  let top := (b.e + b.m.log2 + 1) * 30103 / 100000 + 2
  ((List.range 25).findSome? fun i : Nat => b.onGrid? (top - (i : Int))).getD ⟨b.m, 0⟩

end BinaryNumber

/-- The magnitude of a finite number, or nothing for zero. -/
def magnitude? (x : Float) : Option BinaryNumber :=
  let bits := x.toBits.toNat
  let exponent : Nat := bits / (1 <<< 52) % (1 <<< 11)
  let fraction : Nat := bits % (1 <<< 52)
  if exponent = 0 then
    if fraction = 0 then none else some ⟨fraction, -1074, false⟩
  else some ⟨(1 <<< 52) + fraction, (exponent : Int) - 1075, fraction = 0 && exponent != 1⟩

/-- A decimal in figures: positional with a point if its first digit stands for a power from
`10 ^ (-5)` to `10 ^ 15`, and with an exponent of ten and its sign otherwise. -/
def Decimal.text (d : Decimal) : String :=
  let figures := Nat.toDigits 10 d.digits
  let point : Int := figures.length + d.exponent
  let zeros : Int → List Char := fun n => List.replicate n.toNat '0'
  if 0 ≤ d.exponent ∧ point ≤ 16 then String.ofList (figures ++ zeros d.exponent) ++ ".0"
  else if 0 < point ∧ point ≤ 16 then
    String.ofList (figures.take point.toNat ++ '.' :: figures.drop point.toNat)
  else if -5 < point ∧ point ≤ 0 then "0." ++ String.ofList (zeros (-point) ++ figures)
  else
    let lead := match figures with
      | [f] => [f]
      | f :: rest => f :: '.' :: rest
      | [] => []
    let mark := if 0 < point then "e+" else "e-"
    String.ofList lead ++ mark ++ s!"{(point - 1).natAbs}"

/-- The written form of a finite number. The sign of zero is kept. -/
def floatText (x : Float) : String :=
  let sign := if x.toBits.toNat < 1 <<< 63 then "" else "-"
  match magnitude? x with
  | none => sign ++ "0.0"
  | some b => sign ++ b.shortest.text

end CnotRouting
