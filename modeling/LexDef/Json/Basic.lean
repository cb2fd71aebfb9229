/-!
# JSON values

The values of JSON, with the shapes that data are read from. A record is an object with each of its
fields once, other fields being ignored, or the array of its fields in order. A variant is a name
alone or an object whose only entry has the name and a payload.
-/

namespace LexDef

/-- A JSON value. Objects keep their entries in order. -/
inductive Json where
  | null
  | bool (value : Bool)
  | int (value : Int)
  /-- A number written with a fraction or an exponent, `coefficient * 10 ^ exponent`. -/
  | decimal (coefficient exponent : Int)
  | str (text : String)
  | arr (items : List Json)
  | obj (entries : List (String × Json))
deriving Repr, Inhabited

class Serial (α : Type) where
  toJson : α → Json
  ofJson? : Json → Option α

export Serial (toJson ofJson?)

namespace Json

def natural? (bound : Nat) : Json → Option Nat
  | int (.ofNat n) => if n < bound then some n else none
  | _ => none

/-- A count or an offset, which takes 64 bits. -/
def size? : Json → Option Nat := natural? UInt64.size

def string? : Json → Option String
  | str s => some s
  | _ => none

/-- The value of the field `name`, if it occurs once. -/
def field? (entries : List (String × Json)) (name : String) : Option Json :=
  match entries.filter (·.1 = name) with
  | [(_, value)] => some value
  | _ => none

def record? (names : List String) : Json → Option (List Json)
  | obj entries => names.mapM (field? entries)
  | arr items => if items.length = names.length then some items else none
  | _ => none

def variant? : Json → Option (String × Option Json)
  | str name => some (name, none)
  | obj [(name, payload)] => some (name, some payload)
  | _ => none

def variant (name : String) : Option Json → Json
  | none => str name
  | some payload => obj [(name, payload)]

/-- The value of a variant without payload, for which null may stand. -/
def unit? {α : Type} (value : α) : Option Json → Option α
  | none | some null => some value
  | some _ => none

end Json

end LexDef
