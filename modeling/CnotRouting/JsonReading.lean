import CnotRouting.Json

/-! # Reading JSON

The reader takes a value from the front of a list of characters. Its nested readers share a budget,
which every step lowers by one; the length of the text is always enough. A number without point and
exponent is a whole number, except that a negative zero is a floating-point number. -/

namespace CnotRouting.Json

def skipBlanks (cs : List Char) : List Char :=
  cs.dropWhile fun c => c == ' ' || c == '\n' || c == '\r' || c == '\t'

def hexDigit? (c : Char) : Option Nat :=
  if '0' ≤ c ∧ c ≤ '9' then some (c.toNat - '0'.toNat)
  else if 'a' ≤ c ∧ c ≤ 'f' then some (c.toNat - 'a'.toNat + 10)
  else if 'A' ≤ c ∧ c ≤ 'F' then some (c.toNat - 'A'.toNat + 10)
  else none

def readHexFour? : List Char → Option (Nat × List Char)
  | a :: b :: c :: d :: rest => do
    let a ← hexDigit? a
    let b ← hexDigit? b
    let c ← hexDigit? c
    let d ← hexDigit? d
    return (((a * 16 + b) * 16 + c) * 16 + d, rest)
  | _ => none

/-- Reads a code point. One beyond the first plane is given by a pair of surrogates, and a surrogate
stands nowhere else. -/
def readCodePoint? (cs : List Char) : Option (Char × List Char) := do
  let (high, rest) ← readHexFour? cs
  if high < 0xD800 ∨ 0xDFFF < high then return (Char.ofNat high, rest)
  else match rest with
    | '\\' :: 'u' :: rest => do
      let (low, rest) ← readHexFour? rest
      if high < 0xDC00 ∧ 0xDC00 ≤ low ∧ low ≤ 0xDFFF then
        return (Char.ofNat (0x10000 + (high - 0xD800) * 0x400 + (low - 0xDC00)), rest)
      else none
    | _ => none

def readEscape? : List Char → Option (Char × List Char)
  | 'n' :: rest => some ('\n', rest)
  | 'r' :: rest => some ('\r', rest)
  | 't' :: rest => some ('\t', rest)
  | 'b' :: rest => some ('\x08', rest)
  | 'f' :: rest => some ('\x0c', rest)
  | 'u' :: rest => readCodePoint? rest
  | c :: rest => if c = '"' ∨ c = '\\' ∨ c = '/' then some (c, rest) else none
  | [] => none

/-- Reads a string after its opening quotation mark. `read` holds the characters so far, the last
one first. -/
def readString? : (budget : Nat) → (read : List Char) → List Char → Option (String × List Char)
  | 0, _, _ => none
  | _ + 1, _, [] => none
  | budget + 1, read, c :: rest =>
    if c = '"' then some (String.ofList read.reverse, rest)
    else if c = '\\' then
      match readEscape? rest with
      | some (d, rest) => readString? budget (d :: read) rest
      | none => none
    else if c.toNat < 0x20 then none
    else readString? budget (c :: read) rest

/-- Reads a run of digits, which must not be empty. -/
def readDigits? (cs : List Char) : Option (List Char × List Char) :=
  match cs.takeWhile Char.isDigit with
  | [] => none
  | digits => some (digits, cs.dropWhile Char.isDigit)

def readFraction? : List Char → Option (List Char × List Char)
  | '.' :: rest => readDigits? rest
  | cs => some ([], cs)

def readExponent? (cs : List Char) : Option (Option Int × List Char) :=
  match cs with
  | c :: rest =>
    if c = 'e' ∨ c = 'E' then
      let (sign, rest) : Int × List Char := match rest with
        | '-' :: rest => (-1, rest)
        | '+' :: rest => (1, rest)
        | rest => (1, rest)
      (readDigits? rest).map fun (digits, rest) =>
        (some (sign * (Nat.ofDigitChars 10 digits 0 : Int)), rest)
    else some (none, cs)
  | [] => some (none, [])

/-- The floating-point number nearest to a decimal, if it is finite. -/
def floatOfDecimal? (digits : Nat) (exponent : Int) : Option Float :=
  let point : Int := digits.log2 / 3 + exponent
  if digits = 0 ∨ point < -400 then some 0.0
  else if 800 < point then none
  else
    let x := Float.ofScientific digits (exponent < 0) exponent.natAbs
    if x.isFinite then some x else none

def readNumber? (cs : List Char) : Option (Json × List Char) := do
  let (negative, cs) := match cs with
    | '-' :: rest => (true, rest)
    | cs => (false, cs)
  let (whole, cs) ← readDigits? cs
  if whole.head? = some '0' ∧ whole.length ≠ 1 then none
  else do
    let (fraction, cs) ← readFraction? cs
    let (exponent, cs) ← readExponent? cs
    let digits := Nat.ofDigitChars 10 (whole ++ fraction) 0
    if fraction = [] ∧ exponent = none ∧ ¬(negative ∧ digits = 0) then
      return (.int (if negative then -(digits : Int) else digits), cs)
    else do
      let x ← floatOfDecimal? digits (exponent.getD 0 - fraction.length)
      return (.float (if negative then -x else x), cs)

mutual

def readValue? : (budget : Nat) → List Char → Option (Json × List Char)
  | 0, _ => none
  | budget + 1, cs =>
    match skipBlanks cs with
    | 'n' :: 'u' :: 'l' :: 'l' :: rest => some (.null, rest)
    | 't' :: 'r' :: 'u' :: 'e' :: rest => some (.bool true, rest)
    | 'f' :: 'a' :: 'l' :: 's' :: 'e' :: rest => some (.bool false, rest)
    | '"' :: rest => (readString? budget [] rest).map fun (s, rest) => (.str s, rest)
    | '[' :: rest =>
      match skipBlanks rest with
      | ']' :: rest => some (.arr [], rest)
      | rest => (readItems? budget rest).map fun (items, rest) => (.arr items, rest)
    | '{' :: rest =>
      match skipBlanks rest with
      | '}' :: rest => some (.obj [], rest)
      | rest => (readFields? budget rest).map fun (fields, rest) => (.obj fields, rest)
    | cs => readNumber? cs

def readItems? : (budget : Nat) → List Char → Option (List Json × List Char)
  | 0, _ => none
  | budget + 1, cs =>
    match readValue? budget cs with
    | none => none
    | some (v, rest) =>
      match skipBlanks rest with
      | ',' :: rest => (readItems? budget rest).map fun (items, rest) => (v :: items, rest)
      | ']' :: rest => some ([v], rest)
      | _ => none

def readFields? : (budget : Nat) → List Char → Option (List (String × Json) × List Char)
  | 0, _ => none
  | budget + 1, cs =>
    match skipBlanks cs with
    | '"' :: rest =>
      match readString? budget [] rest with
      | none => none
      | some (key, rest) =>
        match skipBlanks rest with
        | ':' :: rest =>
          match readValue? budget rest with
          | none => none
          | some (v, rest) =>
            match skipBlanks rest with
            | ',' :: rest =>
              (readFields? budget rest).map fun (fields, rest) => ((key, v) :: fields, rest)
            | '}' :: rest => some ([(key, v)], rest)
            | _ => none
        | _ => none
    | _ => none

end

def parse? (text : String) : Option Json :=
  let cs := text.toList
  match readValue? (cs.length + 1) cs with
  | some (v, rest) => if skipBlanks rest = [] then some v else none
  | none => none

end CnotRouting.Json
