import CnotRouting.ShortestDecimals

/-! # JSON values

A JSON value and its compact written form. A number is a whole number or a floating-point number;
the latter is always written with a point or an exponent. -/

namespace CnotRouting

/-- A JSON value. An object keeps its fields in order. -/
inductive Json where
  | null
  | bool (b : Bool)
  | int (n : Int)
  | float (x : Float)
  | str (s : String)
  | arr (items : List Json)
  | obj (fields : List (String × Json))

namespace Json

def nat (n : Nat) : Json := .int n

/-- The value of a field. Of several fields of one name the last counts. -/
def field? (key : String) (fields : List (String × Json)) : Option Json :=
  fields.reverse.lookup key

/-- The four hexadecimal digits of a character below `16 ^ 4`. -/
def hexFour (c : Char) : List Char :=
  [c.toNat / 4096, c.toNat / 256 % 16, c.toNat / 16 % 16, c.toNat % 16].map Nat.digitChar

/-- A character as it stands in a written string. -/
def escaped (c : Char) : List Char :=
  if c = '"' then ['\\', '"']
  else if c = '\\' then ['\\', '\\']
  else if c = '\n' then ['\\', 'n']
  else if c = '\r' then ['\\', 'r']
  else if c = '\t' then ['\\', 't']
  else if c = '\x08' then ['\\', 'b']
  else if c = '\x0c' then ['\\', 'f']
  else if c.toNat < 0x20 then '\\' :: 'u' :: hexFour c
  else [c]

def quoted (s : String) : String :=
  String.ofList ('"' :: s.toList.flatMap escaped ++ ['"'])

mutual

def text : Json → String
  | .null => "null"
  | .bool b => if b then "true" else "false"
  | .int n => s!"{n}"
  | .float x => if x.isFinite then floatText x else "null"
  | .str s => quoted s
  | .arr items => "[" ++ ",".intercalate (itemTexts items) ++ "]"
  | .obj fields => "\x7b" ++ ",".intercalate (fieldTexts fields) ++ "\x7d"

def itemTexts : List Json → List String
  | [] => []
  | v :: rest => v.text :: itemTexts rest

def fieldTexts : List (String × Json) → List String
  | [] => []
  | (key, v) :: rest => (quoted key ++ ":" ++ v.text) :: fieldTexts rest

end

end Json

end CnotRouting
