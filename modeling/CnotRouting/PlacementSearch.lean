import CnotRouting.Devices
import CnotRouting.FirstBest
import CnotRouting.PlacementEnumeration
import CnotRouting.Placements

/-! # Search for a placement

The exhaustive search keeps every placement of least cost. The greedy search starts from the
identity and fixes one site after the other: the open site whose occupant costs most is chosen, its
occupant is exchanged with that of the open site which lowers the cost most, if one does, and the
site where the occupant ends up is fixed. A table that lacks costs serves a search that does not
compare them. -/

namespace CnotRouting

inductive Strategy where
  | exhaustive
  | greedy
  /-- Exhaustive if there are at most `limit` placements, and greedy otherwise. -/
  | auto (limit : Nat)
  deriving DecidableEq

/-- The strategy that is followed if none is chosen. -/
def Strategy.standard : Strategy := .auto 1000000

structure SearchResult where
  cost : Nat
  placements : List Placement
  strategy : Strategy
  deriving DecidableEq

def SearchResult.best? (r : SearchResult) : Option Placement := r.placements.head?

/-- The least cost met so far, with every list of sites of that cost in the order met. -/
structure Minima where
  cost : Nat
  found : Array Placement

def Minima.meet (weight : List Nat → Nat) (m : Minima) (sites : List Nat) : Minima :=
  let cost := weight sites
  if cost < m.cost then ⟨cost, #[⟨sites⟩]⟩
  else if cost = m.cost then ⟨m.cost, m.found.push ⟨sites⟩⟩
  else m

/-- Which site each occupant stands on, which occupant each site has, and the sites not fixed yet in
increasing order. The occupants are the lines of the circuit and placeholders after them. -/
structure Occupation where
  sites : Array Nat
  occupants : Array Nat
  openSites : List Nat
  deriving DecidableEq

/-- Site `q` for `p`, site `p` for `q`, and every other site for itself. -/
def exchanged (p q s : Nat) : Nat := if s = p then q else if s = q then p else s

namespace Occupation

/-- Every occupant on the site of its own number, and every site open. -/
def identity (size : Nat) : Occupation := ⟨Array.range size, Array.range size, List.range size⟩

def siteOf (o : Occupation) (a : Nat) : Nat := o.sites.getD a 0

def occupantOf (o : Occupation) (p : Nat) : Nat := o.occupants.getD p 0

/-- The site that an occupant has once two sites have exchanged theirs. -/
def siteAfter (o : Occupation) (p q a : Nat) : Nat := exchanged p q (o.siteOf a)

def swap (o : Occupation) (p q : Nat) : Occupation :=
  { o with
    sites := o.sites.map (exchanged p q)
    occupants := o.occupants.swapIfInBounds p q }

def close (o : Occupation) (p : Nat) : Occupation := { o with openSites := o.openSites.erase p }

/-- The open site whose occupant has the greatest cost; of equal ones that with more pairs, and of
those the first. -/
def pivot? (i : Interactions) (t : RouteTable) (o : Occupation) : Option Nat :=
  let weight : Nat → Nat := fun p => i.incidentCost t o.siteOf (o.occupantOf p)
  let number : Nat → Nat := fun p => i.incidence (o.occupantOf p)
  firstBest? (fun p q => weight q < weight p || (weight p == weight q && number q < number p))
    o.openSites

/-- Whether the table has every cost that is compared when the occupant of site `p` is settled. -/
def isPriced (i : Interactions) (t : RouteTable) (o : Occupation) (p : Nat) : Bool :=
  i.isPriced t o.siteOf && (o.openSites.erase p).all fun q => i.isPriced t (o.siteAfter p q)

/-- Brings the occupant of site `p` to where it lowers the cost most, and fixes the site where it
ends up. -/
def settle (i : Interactions) (t : RouteTable) (o : Occupation) (p : Nat) : Occupation :=
  let trial : Nat → Nat := fun q => i.placedCost t (o.siteAfter p q)
  match firstLeast? trial (o.openSites.erase p) with
  | some q =>
    if trial q < i.placedCost t o.siteOf then (o.swap p q).close q else o.close p
  | none => o.close p

def round (i : Interactions) (t : RouteTable) (o : Occupation) : Except RoutingError Occupation :=
  match o.pivot? i t with
  | some p => if o.isPriced i t p then .ok (o.settle i t p) else .error .outOfBounds
  | none => .ok o

def rounds (i : Interactions) (t : RouteTable) :
    (count : Nat) → Occupation → Except RoutingError Occupation
  | 0, o => .ok o
  | count + 1, o => do rounds i t count (← o.round i t)

end Occupation

namespace Interactions

/-- Every placement of least cost, in the order of enumeration. A pair of lines stands on every two
distinct sites at some point, so that the costs of all of them are needed. -/
def searchAll (i : Interactions) (t : RouteTable) : Except RoutingError SearchResult :=
  if t.size < i.width then .error (.circuitTooLarge i.width t.size)
  else if i.pairs ≠ [] ∧ !t.coversPairs then .error .outOfBounds
  else
    let weight : List Nat → Nat := fun sites => i.placedCost t (Placement.siteOf ⟨sites⟩)
    let minima := foldArrangements t.size i.width (Minima.meet weight)
      ⟨weight (List.range i.width), #[]⟩
    .ok ⟨minima.cost, minima.found.toList, .exhaustive⟩

/-- The placement that the greedy search ends with after a round for each site. -/
def searchGreedily (i : Interactions) (t : RouteTable) : Except RoutingError SearchResult :=
  if t.size < i.width then .error (.circuitTooLarge i.width t.size)
  else do
    let last ← Occupation.rounds i t t.size (.identity t.size)
    return ⟨i.placedCost t last.siteOf, [⟨last.sites.toList.take i.width⟩], .greedy⟩

def search (i : Interactions) (d : Device) : Strategy → Except RoutingError SearchResult
  | .exhaustive => i.searchAll d.table
  | .greedy => i.searchGreedily d.table
  | .auto limit =>
    if arrangementCount d.size i.width ≤ limit then i.searchAll d.table
    else i.searchGreedily d.table

end Interactions

theorem Occupation.siteOf_swap {o : Occupation} {a : Nat} (h : a < o.sites.size) (p q : Nat) :
    (o.swap p q).siteOf a = o.siteAfter p q a := by
  simp [swap, siteOf, siteAfter, h]

@[simp] theorem Occupation.swap_openSites (o : Occupation) (p q : Nat) :
    (o.swap p q).openSites = o.openSites := rfl

end CnotRouting
