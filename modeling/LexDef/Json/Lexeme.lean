import LexDef.Json.Token
import LexDef.Lexeme
import LexDef.Mode
/-!
# The JSON forms of positions, lexemes and modes
-/

namespace LexDef

instance : Serial Position where
  toJson p := .obj [("line", .int p.line), ("column", .int p.column), ("offset", .int p.offset)]
  ofJson? j := do
    match ← j.record? ["line", "column", "offset"] with
    | [line, column, offset] =>
      return { line := ← line.size?, column := ← column.size?, offset := ← offset.size? }
    | _ => none

instance : Serial Lexeme where
  toJson x := .obj [("token", toJson x.token), ("start", toJson x.start), ("end", toJson x.stop)]
  ofJson? j := do
    match ← j.record? ["token", "start", "end"] with
    | [token, start, stop] =>
      return { token := ← ofJson? token, start := ← ofJson? start, stop := ← ofJson? stop }
    | _ => none

def Region.Kind.variantName : Region.Kind → String
  | string => "StringLiteral"
  | code => "ActionCode"
  | codeString => "ActionCodeString"
  | comment => "Comment"

def Region.Kind.ofVariantName? : String → Option Region.Kind
  | "StringLiteral" => some string
  | "ActionCode" => some code
  | "ActionCodeString" => some codeString
  | "Comment" => some comment
  | _ => none

instance : Serial Mode where
  toJson
    | .token => .variant "Token" none
    | .region r => .variant r.kind.variantName (some (toJson r.start))
  ofJson? j := do
    let (name, payload) ← j.variant?
    if name = "Token" then Json.unit? .token payload
    else
      let kind ← Region.Kind.ofVariantName? name
      return .region { kind, start := ← ofJson? (← payload) }

end LexDef
