import CnotRouting.Interactions

/-! # Placements

A placement lists for each line of a circuit the site, a qubit of the device, on which the line
stands. Placing a circuit renames its lines to their sites and fills the other sites with idle
lines. -/

namespace CnotRouting

/-- The site of each line, in the order of the lines. -/
structure Placement where
  sites : List Nat
  deriving DecidableEq

/-- What is wrong with the sites from `line` on, given those before it. -/
def siteFault? (size : Nat) : (line : Nat) → (taken sites : List Nat) → Option ConfigurationFault
  | _, _, [] => none
  | line, taken, site :: rest =>
    if size ≤ site then some (.lineOutOfRange line site size)
    else if site ∈ taken then some (.siteTaken site)
    else siteFault? size (line + 1) (site :: taken) rest

namespace Placement

/-- The placement on the given sites, if they are distinct sites of a device of the given size. -/
def ofSites (sites : List Nat) (size : Nat) : Except RoutingError Placement :=
  if size < sites.length then .error (.circuitTooLarge sites.length size)
  else match siteFault? size 0 [] sites with
    | some fault => .error (.configuration fault)
    | none => .ok ⟨sites⟩

def identity (width : Nat) : Placement := ⟨List.range width⟩

variable (p : Placement)

def width : Nat := p.sites.length

def site? (line : Nat) : Option Nat := p.sites[line]?

/-- The site of a line, and 0 for a line without one. -/
def siteOf (line : Nat) : Nat := p.sites.getD line 0

/-- Why the placement does not serve a circuit of `width` lines on a device of `size` sites. -/
def fault? (width size : Nat) : Option ConfigurationFault :=
  if p.width ≠ width then some (.placementLength p.width width)
  else (p.sites.find? (size ≤ ·)).map (.siteOutOfRange · size)

def cost (i : Interactions) (t : RouteTable) : Except RoutingError Nat :=
  match p.fault? i.width t.size with
  | some fault => .error (.configuration fault)
  | none => do
    let costs ← i.pairs.mapM fun pair => t.cost (p.siteOf pair.1) (p.siteOf pair.2)
    return totalCost costs

/-- The line that stands on site `k`. A placement whose sites are not distinct lets the last line
that is put on a site stand there. -/
def lineOn? (k : Nat) : Option Nat :=
  (List.range p.width).reverse.find? fun line => p.siteOf line = k

/-- What is placed on site `k`: the line that stands there, or an idle line. -/
def lineAt (lines : List Line) (k : Nat) : Line :=
  ((p.lineOn? k).bind (lines[·]?)).getD (.idle k)

/-- The circuit on `size` sites, each line renamed to its site. -/
def apply (c : Circuit) (size : Nat) : Except RoutingError Circuit :=
  match p.fault? c.width size with
  | some fault => .error (.configuration fault)
  | none =>
    let sites : Circuit := ⟨c.name, (List.range size).map (p.lineAt c.lines), []⟩
    (sites.extend (c.gates.map (·.relabel p.siteOf))).mapError .gate

@[simp] theorem width_identity (width : Nat) : (identity width).width = width := by
  simp [identity, Placement.width]

theorem siteOf_identity {width line : Nat} (h : line < width) :
    (identity width).siteOf line = line := by
  simp [identity, siteOf, h]

end Placement

end CnotRouting
