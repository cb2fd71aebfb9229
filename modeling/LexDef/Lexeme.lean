import LexDef.Position
import LexDef.Token.Spelling
/-!
# Lexemes

A token together with the part of the text that it was read from.
-/

namespace LexDef

/-- A token with the positions of its first character and after its last one. -/
structure Lexeme where
  token : Token
  start : Position
  stop : Position
deriving DecidableEq, Repr, Inhabited

namespace Lexeme

def endAt (p : Position) : Lexeme := { token := .endOfText, start := p, stop := p }

def range (x : Lexeme) : Nat × Nat := (x.start.offset, x.stop.offset)

/-- Action code with its first line moved to the column of the opening brace, so that its lines keep
their indentation relative to each other. Other lexemes have none. -/
def alignedCode? (x : Lexeme) : Option String :=
  match x.token with
  | .code text => some (String.ofList (List.replicate x.start.column ' ' ++ text.toList))
  | _ => none

instance : ToString Lexeme where
  toString x := toString x.token ++ " at " ++ toString x.start

end Lexeme

end LexDef
