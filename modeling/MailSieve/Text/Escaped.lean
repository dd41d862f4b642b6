import MailSieve.Text.CharClass

/-! The escaped form in which messages quote source text: short escapes for the usual controls and
for quotes and backslashes, `\u` with braces for what cannot be seen, and every other character as
it is. A character that attaches to the one before it is escaped where nothing stands before it. -/

namespace MailSieve.Text

def hexDigits (n : Nat) : List Char := Nat.toDigits 16 n

def codePointEscape (c : Char) : List Char :=
  '\\' :: 'u' :: '{' :: (hexDigits c.toNat ++ ['}'])

/-- `first` says that no character stands before this one. -/
def escapeChar (first : Bool) (c : Char) : List Char :=
  match c with
  | '\x00' => ['\\', '0']
  | '\t' => ['\\', 't']
  | '\r' => ['\\', 'r']
  | '\n' => ['\\', 'n']
  | '\'' => ['\\', '\'']
  | '"' => ['\\', '"']
  | '\\' => ['\\', '\\']
  | c =>
    if (first && isGraphemeExtend c) || isUnprintable c then codePointEscape c else [c]

def escape : List Char → List Char
  | [] => []
  | c :: cs => escapeChar true c ++ cs.flatMap (escapeChar false)

/-- The escaped form of a character that stands alone. -/
def escapedChar (c : Char) : String := String.ofList (escapeChar true c)

def escaped (s : String) : String := String.ofList (escape s.toList)

end MailSieve.Text
