import LexDef.Json.Lexeme
import LexDef.Json.Settings
import LexDef.Proofs.Code.Alignment
import LexDef.Proofs.Code.Block
import LexDef.Proofs.Concatenation
import LexDef.Proofs.LineBreaks
import LexDef.Proofs.Nesting
import LexDef.Proofs.Stream.Positions
import LexDef.Proofs.Tiling
import LexDef.Proofs.Unterminated
import LexDef.Proofs.UnclosedCode
import LexDef.Proofs.Comment.Count
import LexDef.Proofs.Escape.CodePoint
import LexDef.Proofs.Evidence
import LexDef.Proofs.Spelling
import LexDef.Proofs.Json.RoundTrip
import LexDef.Proofs.StringLiteral
import LexDef.Proofs.Stream.Lookahead
import LexDef.Proofs.Literal.Agreement
import LexDef.Proofs.Literal.Recognition
import LexDef.Proofs.Progress
import LexDef.Proofs.Word
