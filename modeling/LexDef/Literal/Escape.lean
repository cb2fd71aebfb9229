import LexDef.Fault
/-!
# Escapes

The digits and named characters that stand behind a backslash in character and string literals.
Characters are decoded to UTF-16 code units, since a literal may denote a lone surrogate.
-/

namespace LexDef.Escape

def decimalValue (c : Char) : Except Fault Nat :=
  if c.isDigit then .ok (c.toNat - '0'.toNat) else .error (.notADigit c)

def hexValue (c : Char) : Except Fault Nat :=
  match Hex.value? c with
  | some d => .ok d
  | none => .error (.notAHexDigit c)

def decimal (c₁ c₂ c₃ : Char) : Except Fault UInt16 := do
  let code := (← decimalValue c₁) * 100 + (← decimalValue c₂) * 10 + (← decimalValue c₃)
  if 255 < code then throw (.codeTooLarge code)
  return code.toUInt16

def hexByte (c₁ c₂ : Char) : Except Fault UInt16 := do
  return ((← hexValue c₁) * 16 + (← hexValue c₂)).toUInt16

/-- The number written by exactly `count` hexadecimal digits. The length is checked first. -/
def hexNumber (count : Nat) (s : List Char) : Except Fault Nat :=
  if s.length = count then s.foldlM (fun n c => return n * 16 + (← hexValue c)) 0
  else .error (.digitCount count s.length)

def hexUnit (s : List Char) : Except Fault UInt16 :=
  return (← hexNumber 4 s).toUInt16

inductive Units where
  | single (unit : UInt16)
  | pair (lead trail : UInt16)
deriving DecidableEq, Repr

/-- The code units of a long escape, eight hexadecimal digits. From 0x10000 on a code point takes a
lead and a trail surrogate, which hold the upper and lower ten bits of what exceeds 0x10000. -/
def codePoint (s : List Char) : Except Fault Units := do
  let code ← hexNumber 8 s
  if code < 0x10000 then return .single code.toUInt16
  if 0x10FFFF < code then throw (.beyondUnicode code)
  let excess := code - 0x10000
  return .pair (0xD800 + excess / 0x400).toUInt16 (0xDC00 + excess % 0x400).toUInt16

def hasMeaning (c : Char) : Bool :=
  c ∈ ['\\', '"', '\'', 'n', 't', 'b', 'r']

def meaning : Char → Char
  | 'n' => '\n'
  | 't' => '\t'
  | 'b' => '\x08'
  | 'r' => '\r'
  | c => c

/-- The one code unit of a character, if it takes no more. -/
def unit? (c : Char) : Option UInt16 :=
  if c.toNat < 0x10000 then some c.toNat.toUInt16 else none

end LexDef.Escape
