import MailSieve.Grammar.Cursor
import MailSieve.Script.Tree

/-! Strings, string lists and numbers, wherever they stand. -/

namespace MailSieve.Parse

def string : Parse StringLit := do
  note (.tokenClass "string")
  let l ← peek
  match l.token with
  | .string value multiline =>
    let _ ← advance
    pure ⟨value, multiline, ← located l.location⟩
  | _ => fail

/-- A single string stands for a list of one; brackets hold at least one string. -/
def stringList : Parse StringList := do
  let start := (← peek).location.start
  if ← eat .openBracket then
    let values ← commaSeparated string
    let _ ← expect .closeBracket
    pure ⟨values, ← span start⟩
  else
    let s ← string
    pure ⟨[s], ← span start⟩

def isAtString : Parse Bool := do
  let l ← peek
  match l.token with
  | .string _ _ => pure true
  | _ => pure false

def isAtStringList : Parse Bool := do
  note (.literal "[")
  note (.tokenClass "string")
  let l ← peek
  match l.token with
  | .string _ _ => pure true
  | token => pure (token = .mark .openBracket)

def number : Parse NumberLit := do
  note (.tokenClass "number")
  let l ← peek
  match l.token with
  | .number value quantifier =>
    let _ ← advance
    pure ⟨value, quantifier, ← located l.location⟩
  | _ => fail

/-- A string out of a closed vocabulary. -/
def chosen {α : Type} (ofWord? : String → Option α) (refuse : String → Location → Fault) :
    Parse α := do
  let l ← peek
  let s ← string
  match ofWord? s.value with
  | some a => pure a
  | none => throw (refuse s.value l.location)

end MailSieve.Parse
