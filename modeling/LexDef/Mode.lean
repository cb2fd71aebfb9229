import LexDef.Region.Basic
/-!
# Modes

What is being read at a point of a text: tokens, or the inside of a region.
-/

namespace LexDef

inductive Mode where
  | token
  | region (region : Region)
deriving DecidableEq, Repr, Inhabited

namespace Mode

def start? : Mode → Option Position
  | token => none
  | region r => some r.start

def name : Mode → String
  | token => "token"
  | region r => r.kind.name

instance : ToString Mode where
  toString
    | token => "token"
    | region r => toString r

end Mode

end LexDef
