import LexDef.Fault
import LexDef.Mode
/-!
# Errors

An error is a fault with what was known where it arose: the regions around it, innermost first, and
the start of the literal that it was found in.
-/

namespace LexDef

structure Error where
  fault : Fault
  enclosing : List Mode := []
  /-- The start of the literal or escape that the fault was found in. -/
  location : Option Position := none
deriving DecidableEq, Repr, Inhabited

namespace Error

def inside (e : Error) (modes : List Mode) : Error :=
  { e with enclosing := e.enclosing ++ modes }

/-- Records where the literal starts. The first record stays. -/
def locatedAt (e : Error) (p : Position) : Error :=
  { e with location := e.location.or (some p) }

def position? (e : Error) : Option Position :=
  e.fault.position?.or e.location

def message (e : Error) : String :=
  e.fault.message ++ place ++ String.join (e.enclosing.map surrounding)
where
  surrounding (m : Mode) : String := "\n  while scanning " ++ toString m
  place : String :=
    match e.fault.position?, e.location with
    | none, some p => " at " ++ toString p
    | _, _ => ""

end Error

/-- The outcome of reading that failed: the error and the position where reading stopped. -/
structure Failure where
  error : Error
  stop : Position
deriving DecidableEq, Repr, Inhabited

namespace Failure

def inside (f : Failure) (modes : List Mode) : Failure :=
  { f with error := f.error.inside modes }

end Failure

end LexDef
