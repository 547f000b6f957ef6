import CnotRouting.DecimalNumerals
import CnotRouting.NumberBounds
import CnotRouting.RoutingErrors
import CnotRouting.TextTokens

/-! # Reading tokens

A reader takes what it needs from the front of a token list and returns it with the rest. `last` is
the line that is blamed when the tokens run out. -/

namespace CnotRouting

def sizeLimit : Nat := 4096

/-- Goes on only under a condition. -/
def require (p : Prop) [Decidable p] (line : Nat) (fault : FormatFault) :
    Except FormatError Unit :=
  if p then .ok () else .error ⟨line, fault⟩

@[simp] theorem require_eq_ok_iff {p : Prop} [Decidable p] {line : Nat} {fault : FormatFault}
    {u : Unit} : require p line fault = .ok u ↔ p := by
  by_cases h : p <;> simp [require, h]

def Token.numeral (t : Token) (role : Numeral) : Except FormatError Nat :=
  match numeral? wordBound t.word with
  | some n => .ok n
  | none => .error ⟨t.line, .invalidNumeral role t.word⟩

/-- The qubit of a device of the given size that a token denotes. -/
def Token.qubit (t : Token) (size : Nat) : Except FormatError Nat := do
  let q ← t.numeral .qubit
  require (q < size) t.line (.qubitOutOfRange q size)
  return q

def takeToken (last : Nat) (needed : Expectation) :
    List Token → Except FormatError (Token × List Token)
  | [] => .error ⟨last, .endOfText needed⟩
  | t :: rest => .ok (t, rest)

def takeKeyword (last : Nat) (word : String) (tokens : List Token) :
    Except FormatError (List Token) := do
  let (t, rest) ← takeToken last (.keyword word) tokens
  require (t.word = word) t.line (.otherKeyword word t.word)
  return rest

/-- Takes a number, and returns it after the number of its line. -/
def takeNumeral (last : Nat) (role : Numeral) (tokens : List Token) :
    Except FormatError (Nat × Nat × List Token) := do
  let (t, rest) ← takeToken last (.numeral role) tokens
  return (t.line, ← t.numeral role, rest)

def decodeText (bytes : ByteArray) : Except RoutingError String :=
  match String.fromUTF8? bytes with
  | some text => .ok text
  | none => .error .notText

@[simp] theorem decodeText_toUTF8 (text : String) : decodeText text.toUTF8 = .ok text := by
  have decoded : String.fromUTF8? text.toUTF8 = some text := by
    simpa [String.fromUTF8?] using ⟨text.isValidUTF8, rfl⟩
  simp only [decodeText, decoded]

end CnotRouting
