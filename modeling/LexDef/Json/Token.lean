import LexDef.Json.Basic
import LexDef.Token.Basic
/-!
# The JSON form of tokens
-/

namespace LexDef.Token

def variantName : Token → String
  | rule => "Rule"
  | parse => "Parse"
  | eof => "Eof"
  | let_ => "Let"
  | and_ => "And"
  | char _ => "Char"
  | string _ => "String"
  | ident _ => "Ident"
  | category _ => "UnicodeCategory"
  | code _ => "Code"
  | bar => "Bar"
  | dot => "Dot"
  | plus => "Plus"
  | star => "Star"
  | question => "QMark"
  | equals => "Equals"
  | leftBracket => "LBrack"
  | rightBracket => "RBrack"
  | leftParen => "LParen"
  | rightParen => "RParen"
  | underscore => "Underscore"
  | hat => "Hat"
  | dash => "Dash"
  | endOfText => "EndOfInput"

def payload? : Token → Option Json
  | char unit => some (.int unit.toNat)
  | string text | ident text | category text | code text => some (.str text)
  | _ => none

def ofVariant? (name : String) (payload : Option Json) : Option Token :=
  match name with
  | "Rule" => Json.unit? rule payload
  | "Parse" => Json.unit? parse payload
  | "Eof" => Json.unit? eof payload
  | "Let" => Json.unit? let_ payload
  | "And" => Json.unit? and_ payload
  | "Char" => do return char (← (← payload).natural? UInt16.size).toUInt16
  | "String" => do return string (← (← payload).string?)
  | "Ident" => do return ident (← (← payload).string?)
  | "UnicodeCategory" => do return category (← (← payload).string?)
  | "Code" => do return code (← (← payload).string?)
  | "Bar" => Json.unit? bar payload
  | "Dot" => Json.unit? dot payload
  | "Plus" => Json.unit? plus payload
  | "Star" => Json.unit? star payload
  | "QMark" => Json.unit? question payload
  | "Equals" => Json.unit? equals payload
  | "LBrack" => Json.unit? leftBracket payload
  | "RBrack" => Json.unit? rightBracket payload
  | "LParen" => Json.unit? leftParen payload
  | "RParen" => Json.unit? rightParen payload
  | "Underscore" => Json.unit? underscore payload
  | "Hat" => Json.unit? hat payload
  | "Dash" => Json.unit? dash payload
  | "EndOfInput" => Json.unit? endOfText payload
  | _ => none

instance : Serial Token where
  toJson t := .variant t.variantName t.payload?
  ofJson? j := do
    let (name, payload) ← j.variant?
    ofVariant? name payload

end LexDef.Token
