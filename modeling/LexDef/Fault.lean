import LexDef.Region.Basic
import LexDef.Text.Escaped
/-!
# Faults

The causes for which reading a lexer definition fails, the position that some of them carry, and
their wording.
-/

namespace LexDef

/-- Why a text, an escape or a setting is refused. -/
inductive Fault where
  /-- No token starts with this character. -/
  | unexpected (character : Char) (position : Position)
  | notADigit (character : Char)
  | notAHexDigit (character : Char)
  /-- An escape has another number of digits than its form asks for. -/
  | digitCount (expected actual : Nat)
  /-- A decimal escape above 255. -/
  | codeTooLarge (code : Nat)
  | beyondUnicode (code : Nat)
  /-- A character literal whose character takes two UTF-16 code units. -/
  | surrogatePair (position : Position)
  | unterminated (region : Region)
  /-- The delimiter at `position` would open more regions at once than `depth` allows. -/
  | tooDeep (depth : Nat) (position : Position)
  | badSettings (reason : String)
deriving DecidableEq, Repr, Inhabited

namespace Fault

def position? : Fault → Option Position
  | unexpected _ p | surrogatePair p | tooDeep _ p => some p
  | unterminated r => some r.start
  | notADigit _ | notAHexDigit _ | digitCount _ _ | codeTooLarge _
  | beyondUnicode _ | badSettings _ => none

def message : Fault → String
  | unexpected c p => "Unexpected character '" ++ escaped c ++ "' at " ++ toString p
  | notADigit c => "Invalid digit '" ++ escaped c ++ "'"
  | notAHexDigit c => "Invalid hex digit '" ++ escaped c ++ "'"
  | digitCount expected actual =>
    "Invalid escape length " ++ toString actual ++ ", expected " ++ toString expected ++ " digits"
  | codeTooLarge code => "Character code " ++ toString code ++ " is out of range 0..=255"
  | beyondUnicode code =>
    "Code point 0x" ++ String.ofList (Hex.numeral Hex.upper code) ++ " is out of the unicode range"
  | surrogatePair p =>
    "Unicode characters needing surrogate pairs are not supported in character literals at "
      ++ toString p
  | unterminated r => "End of input in " ++ toString r
  | tooDeep depth p => "Nesting depth " ++ toString depth ++ " exceeded at " ++ toString p
  | badSettings reason => "Invalid scanner configuration: " ++ reason
where
  escaped (c : Char) : String := String.ofList (Escaped.char c)

end Fault

end LexDef
