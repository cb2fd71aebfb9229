import LexDef.Position
/-!
# Regions

A region is a part of a text between an opening and a closing delimiter, in which rules of its own
hold. Regions nest, and each is known by its kind and the position of its opening delimiter.
-/

namespace LexDef

inductive Region.Kind where
  | string
  | code
  /-- A string inside action code. -/
  | codeString
  | comment
deriving DecidableEq, Repr, Inhabited

/-- A region of some kind whose opening delimiter is at `start`. -/
structure Region where
  kind : Region.Kind
  start : Position
deriving DecidableEq, Repr, Inhabited

namespace Region

def Kind.name : Kind → String
  | string => "string"
  | code => "action code"
  | codeString => "string in action code"
  | comment => "comment"

instance : ToString Region where
  toString r := r.kind.name ++ " started at " ++ toString r.start

end Region

end LexDef
