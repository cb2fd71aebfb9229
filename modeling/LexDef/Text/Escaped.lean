import LexDef.Text.Hex
/-!
# Escaped text

How characters are shown in messages and in printed string literals: the printable ASCII characters
stand for themselves, except for quotes and the backslash; all others are written with a backslash.
-/

namespace LexDef.Escaped

def char (c : Char) : List Char :=
  match c with
  | '\t' => ['\\', 't']
  | '\r' => ['\\', 'r']
  | '\n' => ['\\', 'n']
  | '\'' => ['\\', '\'']
  | '"' => ['\\', '"']
  | '\\' => ['\\', '\\']
  | c =>
    if ' ' ≤ c ∧ c ≤ '~' then [c]
    else ['\\', 'u', '{'] ++ Hex.numeral Hex.lower c.toNat ++ ['}']

def chars (s : List Char) : List Char := s.flatMap char

end LexDef.Escaped
