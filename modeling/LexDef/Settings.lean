import LexDef.Error
/-!
# Settings

What can be chosen about reading a lexer definition. A `Scanner` holds settings that are usable:
without any open region allowed, no literal and no action code could be read.
-/

namespace LexDef

/-- What becomes of action code that is still open where the text ends. -/
inductive UnclosedCode where
  | refused
  /-- It is left out, as if the text ended before it. -/
  | dropped
deriving DecidableEq, Repr, Inhabited

structure Settings where
  unclosedCode : UnclosedCode := .refused
  /-- How many regions may be open at the same time. -/
  maxNesting : Nat := 512
deriving DecidableEq, Repr, Inhabited

structure Scanner extends Settings where
  maxNesting_pos : 0 < maxNesting
deriving DecidableEq, Repr

def Settings.toScanner (settings : Settings) : Except Error Scanner :=
  if h : 0 < settings.maxNesting then .ok { settings with maxNesting_pos := h }
  else .error { fault := .badSettings "the maximum nesting depth must be greater than 0" }

end LexDef
