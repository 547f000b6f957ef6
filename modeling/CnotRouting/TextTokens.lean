import CnotRouting.BlankCharacters

/-! # Lines and tokens of a text

A text is cut into lines at its line feeds, and a line into words. A line feed at the end of the
text ends the last line and opens no other. Lines are numbered from 1. -/

namespace CnotRouting

/-- The lines of a text, without their line feeds. -/
def textLines : List Char → List (List Char)
  | [] => []
  | c :: cs =>
    ((c :: cs).takeWhile (· != '\n')) :: textLines (((c :: cs).dropWhile (· != '\n')).drop 1)
termination_by cs => cs.length
decreasing_by
  have := (List.dropWhile_suffix (· != '\n') (l := c :: cs)).length_le
  simp only [List.length_drop, List.length_cons] at *
  omega

structure TextRow where
  line : Nat
  words : List String
  deriving DecidableEq

structure Token where
  line : Nat
  word : String
  deriving DecidableEq

def textRows (text : String) : List TextRow :=
  (textLines text.toList).zipIdx.map fun (cs, i) => ⟨i + 1, (words cs).map String.ofList⟩

def rowTokens (rows : List TextRow) : List Token :=
  rows.flatMap fun row => row.words.map fun word => ⟨row.line, word⟩

/-- The number of the last row, and 0 where there is none. -/
def lastLine (rows : List TextRow) : Nat := (rows.getLast?.map (·.line)).getD 0

@[simp] theorem textLines_nil : textLines [] = [] := by
  rw [textLines]

@[simp] theorem rowTokens_append (rows more : List TextRow) :
    rowTokens (rows ++ more) = rowTokens rows ++ rowTokens more := by
  simp [rowTokens]

end CnotRouting
