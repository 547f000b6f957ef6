import CnotRouting.NumberBounds

/-! # Enumeration of placements

The placements of `l` lines on `n` sites are met set of sites by set of sites, and every order of a
set in turn. Sets, written in increasing order, and orders of a set both follow each other
lexicographically; the next one is found from the present one. -/

namespace CnotRouting

/-- Puts `x` in the place of the first greater number, which is returned beside the new list. -/
def exchange? (x : Nat) : List Nat → Option (Nat × List Nat)
  | [] => none
  | y :: ys => if x < y then some (y, x :: ys) else (exchange? x ys).map fun (z, zs) => (z, y :: zs)

/-- The least rearrangement that comes lexicographically after the list. If the tail is the last of
its own rearrangements, the next number of the tail takes the first place and the tail starts anew
in increasing order. -/
def nextPermutation? : List Nat → Option (List Nat)
  | [] => none
  | x :: rest =>
    match nextPermutation? rest with
    | some next => some (x :: next)
    | none => (exchange? x rest.reverse).map fun (y, tail) => y :: tail

/-- The set of the same number of elements below `n` that comes lexicographically next. If the tail
is the last one, the first element grows by one and the tail follows it closely, provided that it
has room. -/
def nextCombination? (n : Nat) : List Nat → Option (List Nat)
  | [] => none
  | x :: rest =>
    match nextCombination? n rest with
    | some next => some (x :: next)
    | none =>
      if x + rest.length + 1 < n then some ((x + 1) :: List.range' (x + 2) rest.length) else none

/-- Folds `f` over `a`, the element after `a`, the one after that and so on, over at most
`steps + 1` elements. -/
def foldSuccessors {α β : Type} (next? : α → Option α) (f : β → α → β) : (steps : Nat) → β → α → β
  | 0, acc, a => f acc a
  | steps + 1, acc, a =>
    match next? a with
    | none => f acc a
    | some b => foldSuccessors next? f steps (f acc a) b

/-- Folds `f` over every order of a set. A set of `l` elements has at most `l ^ l` orders. -/
def foldOrders {β : Type} (f : β → List Nat → β) (acc : β) (set : List Nat) : β :=
  foldSuccessors nextPermutation? f (set.length.pow set.length) acc set

/-- Folds `f` over every list of `l` distinct numbers below `n`. There are at most `n ^ l` sets of
`l` numbers. -/
def foldArrangements {β : Type} (n l : Nat) (f : β → List Nat → β) (acc : β) : β :=
  foldSuccessors (nextCombination? n) (foldOrders f) (n.pow l) acc (List.range l)

/-- Multiplies `acc` by `count` numbers from `first` on, if every product is below the bound. -/
def boundedProduct? (bound : Nat) : (first count acc : Nat) → Option Nat
  | _, 0, acc => some acc
  | first, count + 1, acc =>
    if acc * first < bound then boundedProduct? bound (first + 1) count (acc * first) else none

/-- The number of lists of `l` distinct numbers below `n`, or the greatest count if there are
more. -/
def arrangementCount (n l : Nat) : Nat :=
  if n < l then 0 else (boundedProduct? countBound (n - l + 1) l 1).getD (countBound - 1)

end CnotRouting
