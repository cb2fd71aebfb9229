/-!
# Tokens

The tokens of a lexer definition, with the words and single characters that stand for them.
-/

namespace LexDef

inductive Token where
  | rule
  | parse
  | eof
  | let_
  | and_
  /-- A character literal, as one UTF-16 code unit. -/
  | char (unit : UInt16)
  /-- A string literal, decoded. -/
  | string (text : String)
  | ident (name : String)
  /-- A Unicode general category such as `Lu`. -/
  | category (name : String)
  /-- The text between the braces of a block of action code. -/
  | code (text : String)
  | bar
  | dot
  | plus
  | star
  | question
  | equals
  | leftBracket
  | rightBracket
  | leftParen
  | rightParen
  | underscore
  | hat
  | dash
  | endOfText
deriving DecidableEq, Repr, Inhabited

namespace Token

def reserved? (word : String) : Option Token :=
  if word = "rule" then some .rule
  else if word = "parse" then some .parse
  else if word = "eof" then some .eof
  else if word = "let" then some .let_
  else if word = "and" then some .and_
  else none

def symbol? : Char → Option Token
  | '|' => some .bar
  | '.' => some .dot
  | '+' => some .plus
  | '*' => some .star
  | '?' => some .question
  | '=' => some .equals
  | '[' => some .leftBracket
  | ']' => some .rightBracket
  | '(' => some .leftParen
  | ')' => some .rightParen
  | '_' => some .underscore
  | '^' => some .hat
  | '-' => some .dash
  | _ => none

/-- The token of a whole word. A lone underscore is no identifier. -/
def ofWord (word : String) : Token :=
  if word = "_" then .underscore else (reserved? word).getD (.ident word)

def isEnd (t : Token) : Bool := t = .endOfText

end Token

def isWordStart (c : Char) : Bool := c.isAlpha || c = '_'

def isWordChar (c : Char) : Bool := c.isAlphanum || c = '\'' || c = '_'

end LexDef
