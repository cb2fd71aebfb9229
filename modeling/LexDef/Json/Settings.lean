import LexDef.Json.Basic
import LexDef.Settings
/-!
# The JSON form of settings
-/

namespace LexDef

instance : Serial UnclosedCode where
  toJson
    | .refused => .variant "Error" none
    | .dropped => .variant "EndOfInput" none
  ofJson? j := do
    match ← j.variant? with
    | ("Error", payload) => Json.unit? .refused payload
    | ("EndOfInput", payload) => Json.unit? .dropped payload
    | _ => none

instance : Serial Settings where
  toJson settings :=
    .obj [("code_block_at_eof", toJson settings.unclosedCode),
      ("max_nesting_depth", .int settings.maxNesting)]
  ofJson? j := do
    match ← j.record? ["code_block_at_eof", "max_nesting_depth"] with
    | [unclosedCode, maxNesting] =>
      return { unclosedCode := ← ofJson? unclosedCode, maxNesting := ← maxNesting.size? }
    | _ => none

end LexDef
