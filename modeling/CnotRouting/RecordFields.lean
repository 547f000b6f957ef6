import CnotRouting.Json
import CnotRouting.NumberBounds

/-! # Fields of records

A record is written as a JSON object with fixed fields in a fixed order. It is read from an object,
whose unknown fields are passed over, or from an array that lists the fields without their names. A
choice is written as the name of an alternative, or as an object of one field named for it. Fields
that belong to an alternative itself are read by their names only. -/

namespace CnotRouting.Json

/-- A field that must be present. `names` are the fields of the record. -/
def fieldOf? (record : Json) (names : List String) (key : String) : Option Json :=
  match record with
  | .obj fields => field? key fields
  | .arr items => if items.length ≤ names.length then items[names.idxOf key]? else none
  | _ => none

/-- A field that counts as null where an object leaves it out. -/
def nullableFieldOf? (record : Json) (names : List String) (key : String) : Option Json :=
  match record with
  | .obj fields => some ((field? key fields).getD .null)
  | _ => record.fieldOf? names key

/-- A last field that may be left out. -/
def lastFieldOf? (record : Json) (names : List String) (key : String) (missing : Json) :
    Option Json :=
  match record with
  | .obj fields => some ((field? key fields).getD missing)
  | .arr items =>
    if items.length ≤ names.length then some (items[names.idxOf key]?.getD missing) else none
  | _ => none

/-- A field of an alternative, which must be present under its name. -/
def namedFieldOf? (content : Json) (key : String) : Option Json :=
  match content with
  | .obj fields => field? key fields
  | _ => none

/-- The name of an alternative and what belongs to it. -/
def alternative? : Json → Option (String × Json)
  | .str name => some (name, .null)
  | .obj [(name, v)] => some (name, v)
  | _ => none

/-- The name of an alternative to which nothing belongs. -/
def plainAlternative? (v : Json) : Option String :=
  match alternative? v with
  | some (name, .null) => some name
  | _ => none

def bool? : Json → Option Bool
  | .bool b => some b
  | _ => none

def string? : Json → Option String
  | .str s => some s
  | _ => none

def natBelow? (bound : Nat) : Json → Option Nat
  | .int (.ofNat n) => if n < bound then some n else none
  | _ => none

/-- Any number as a floating-point number. -/
def float? : Json → Option Float
  | .int n => some (Float.ofInt n)
  | .float x => some x
  | _ => none

def list? {α : Type} (read : Json → Option α) : Json → Option (List α)
  | .arr items => items.mapM read
  | _ => none

def optional? {α : Type} (read : Json → Option α) : Json → Option (Option α)
  | .null => some none
  | v => (read v).map some

def ofList {α : Type} (write : α → Json) (items : List α) : Json := .arr (items.map write)

def ofOption {α : Type} (write : α → Json) (a : Option α) : Json := (a.map write).getD .null

@[simp] theorem bool?_bool (b : Bool) : bool? (.bool b) = some b := rfl

@[simp] theorem string?_str (s : String) : string? (.str s) = some s := rfl

@[simp] theorem float?_float (x : Float) : float? (.float x) = some x := rfl

theorem natBelow?_nat {bound n : Nat} (h : n < bound) : natBelow? bound (nat n) = some n := by
  simp [natBelow?, nat, h]

end CnotRouting.Json
