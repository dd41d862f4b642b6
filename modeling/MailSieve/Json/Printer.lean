import MailSieve.Json.Value
import MailSieve.Text.Digits

/-! Writing JSON, on one line or with two spaces for each level of nesting.
In strings a double quote, a backslash and the controls below the space are escaped, the usual ones
by a letter and the others by four lower-case hexadecimal digits; all else stands as it is. Empty
arrays and objects are written without a break. -/

namespace MailSieve.Json

def hexDigit (n : Nat) : Char := Nat.digitChar n

def escapeChar (c : Char) : List Char :=
  if c = '"' then ['\\', '"']
  else if c = '\\' then ['\\', '\\']
  else if c = '\n' then ['\\', 'n']
  else if c = '\r' then ['\\', 'r']
  else if c = '\t' then ['\\', 't']
  else if c = '\x08' then ['\\', 'b']
  else if c = '\x0c' then ['\\', 'f']
  else if c.toNat < 32 then
    ['\\', 'u', '0', '0', hexDigit (c.toNat / 16), hexDigit (c.toNat % 16)]
  else [c]

def escapeString : List Char → List Char → List Char
  | [], rest => rest
  | c :: cs, rest => escapeChar c ++ escapeString cs rest

def writeString (s : String) (rest : List Char) : List Char :=
  '"' :: escapeString s.toList ('"' :: rest)

/-- How the members of a container are set apart: what stands before each of them, before the
closing bracket, and after a name's colon. -/
structure Style where
  lineBreak : Nat → List Char
  colon : List Char

def oneLine : Style := ⟨fun _ => [], [':']⟩

def indented : Style := ⟨fun depth => '\n' :: List.replicate (2 * depth) ' ', [':', ' ']⟩

mutual

/-- Writes a value that stands `depth` levels deep, and `rest` after it. -/
def write (style : Style) (depth : Nat) : Json → List Char → List Char
  | null, rest => 'n' :: 'u' :: 'l' :: 'l' :: rest
  | bool true, rest => 't' :: 'r' :: 'u' :: 'e' :: rest
  | bool false, rest => 'f' :: 'a' :: 'l' :: 's' :: 'e' :: rest
  | natural n, rest => Text.decimal n ++ rest
  | negative n, rest => '-' :: (Text.decimal n ++ rest)
  | real text, rest => text.toList ++ rest
  | string s, rest => writeString s rest
  | array [], rest => '[' :: ']' :: rest
  | array (j :: js), rest =>
    '[' :: (style.lineBreak (depth + 1)
      ++ j.write style (depth + 1)
        (writeItems style (depth + 1) js (style.lineBreak depth ++ ']' :: rest)))
  | object [], rest => '{' :: '}' :: rest
  | object (m :: ms), rest =>
    '{' :: (style.lineBreak (depth + 1)
      ++ writeMember style (depth + 1) m
        (writeMembers style (depth + 1) ms (style.lineBreak depth ++ '}' :: rest)))
  | broken _, rest => rest

def writeItems (style : Style) (depth : Nat) : List Json → List Char → List Char
  | [], rest => rest
  | j :: js, rest =>
    ',' :: (style.lineBreak depth ++ j.write style depth (writeItems style depth js rest))

def writeMember (style : Style) (depth : Nat) : String × Json → List Char → List Char
  | (name, j), rest => writeString name (style.colon ++ j.write style depth rest)

def writeMembers (style : Style) (depth : Nat) : List (String × Json) → List Char → List Char
  | [], rest => rest
  | m :: ms, rest =>
    ',' :: (style.lineBreak depth ++ writeMember style depth m (writeMembers style depth ms rest))

end

def compact (j : Json) : String := String.ofList (j.write oneLine 0 [])

def pretty (j : Json) : String := String.ofList (j.write indented 0 [])

end MailSieve.Json
