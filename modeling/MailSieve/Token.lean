import MailSieve.Script.Vocabulary

/-! Tokens of the filter language, and the names by which messages call them. -/

namespace MailSieve

inductive Punctuation where
  | semicolon
  | comma
  | openParen
  | closeParen
  | openBrace
  | closeBrace
  | openBracket
  | closeBracket
deriving DecidableEq

namespace Punctuation

def values : List Punctuation :=
  [semicolon, comma, openParen, closeParen, openBrace, closeBrace, openBracket, closeBracket]

def char : Punctuation → Char
  | semicolon => ';'
  | comma => ','
  | openParen => '('
  | closeParen => ')'
  | openBrace => '{'
  | closeBrace => '}'
  | openBracket => '['
  | closeBracket => ']'

def ofChar? (c : Char) : Option Punctuation := values.find? (·.char == c)

theorem ofChar?_char (p : Punctuation) : ofChar? p.char = some p := by cases p <;> rfl

end Punctuation

/-- Strings are decoded, tags are without their colon, and numbers are multiplied out. -/
inductive Token where
  | tag (name : String)
  | word (name : String)
  | string (value : String) (multiline : Bool)
  | number (value : UInt64) (quantifier : Option Quantifier)
  | mark (punctuation : Punctuation)
  | endOfInput
deriving DecidableEq

namespace Token

def describe : Token → String
  | tag _ => "tag"
  | word _ => "identifier"
  | string _ _ => "string"
  | number _ _ => "number"
  | mark p => String.singleton p.char
  | endOfInput => "end of input"

end Token

end MailSieve
