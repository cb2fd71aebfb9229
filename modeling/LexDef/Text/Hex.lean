/-!
# Hexadecimal numerals

Digits of both cases are read; numerals are written in one case, either without leading zeros or in
four digits.
-/

namespace LexDef.Hex

def value? (c : Char) : Option Nat :=
  if '0' ≤ c ∧ c ≤ '9' then some (c.toNat - '0'.toNat)
  else if 'a' ≤ c ∧ c ≤ 'f' then some (c.toNat - 'a'.toNat + 10)
  else if 'A' ≤ c ∧ c ≤ 'F' then some (c.toNat - 'A'.toNat + 10)
  else none

def isDigit (c : Char) : Bool := (value? c).isSome

/-- The lower-case digit of value `d`, for `d < 16`. -/
def lower (d : Nat) : Char :=
  if d < 10 then Char.ofNat ('0'.toNat + d) else Char.ofNat ('a'.toNat + (d - 10))

/-- The upper-case digit of value `d`, for `d < 16`. -/
def upper (d : Nat) : Char :=
  if d < 10 then Char.ofNat ('0'.toNat + d) else Char.ofNat ('A'.toNat + (d - 10))

def numeral (digit : Nat → Char) (n : Nat) : List Char :=
  if n < 16 then [digit n] else numeral digit (n / 16) ++ [digit (n % 16)]

def ofUnit (u : UInt16) : List Char :=
  let n := u.toNat
  [upper (n / 4096), upper (n / 256 % 16), upper (n / 16 % 16), upper (n % 16)]

end LexDef.Hex
