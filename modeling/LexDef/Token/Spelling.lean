import LexDef.Text.Escaped
import LexDef.Token.Basic
/-!
# How tokens are written

Every token but the end of the text is written as a lexer definition could spell it. A character is
always written by the four digits of its code unit, and a string with its characters escaped.
-/

namespace LexDef.Token

def spelling : Token → List Char
  | rule => "rule".toList
  | parse => "parse".toList
  | eof => "eof".toList
  | let_ => "let".toList
  | and_ => "and".toList
  | char u => ['\'', '\\', 'u'] ++ Hex.ofUnit u ++ ['\'']
  | string text => ['"'] ++ Escaped.chars text.toList ++ ['"']
  | ident name => name.toList
  | category name => ['\'', '\\'] ++ name.toList ++ ['\'']
  | code text => ['{'] ++ text.toList ++ ['}']
  | bar => ['|']
  | dot => ['.']
  | plus => ['+']
  | star => ['*']
  | question => ['?']
  | equals => ['=']
  | leftBracket => ['[']
  | rightBracket => [']']
  | leftParen => ['(']
  | rightParen => [')']
  | underscore => ['_']
  | hat => ['^']
  | dash => ['-']
  | endOfText => "end of input".toList

instance : ToString Token where
  toString t := String.ofList t.spelling

end LexDef.Token
