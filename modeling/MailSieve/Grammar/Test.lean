import MailSieve.Grammar.Tag
import MailSieve.Script.Keyword

/-! Tests.
A test stands one level deeper than what it belongs to, and so does a test in parentheses. `room` is
the number of levels that are left. -/

namespace MailSieve.Parse

def addressTest (start : Position) : Parse Test := do
  let uses ← tags TagRules.address
  let headers ← stringList
  let keys ← stringList
  pure (.address ⟨uses.addressPart?, uses.matchOptions, headers, keys, ← span start⟩)

def envelopeTest (start : Position) : Parse Test := do
  let uses ← tags TagRules.address
  let parts ← stringList
  let keys ← stringList
  pure (.envelope ⟨uses.addressPart?, uses.matchOptions, parts, keys, ← span start⟩)

def headerTest (start : Position) : Parse Test := do
  let uses ← tags TagRules.matching
  let headers ← stringList
  let keys ← stringList
  pure (.header ⟨uses.matchOptions, headers, keys, ← span start⟩)

def existsTest (start : Position) : Parse Test := do
  let headers ← stringList
  pure (.headerExists headers (← span start))

def sizeTest (start : Position) : Parse Test := do
  let uses ← tags TagRules.size
  if uses.isEmpty then
    note (.literal ":over")
    note (.literal ":under")
    fail
  else
    let size ← number
    pure (.size ⟨uses.has "over", size, ← span start⟩)

def bodyTest (start : Position) : Parse Test := do
  let uses ← tags TagRules.body
  let keys ← stringList
  pure (.body ⟨uses.transform?, uses.matchOptions, keys, ← span start⟩)

def dateTest (start : Position) : Parse Test := do
  let uses ← tags TagRules.date
  let header ← string
  let part ← string
  let keys ← stringList
  pure (.date
    ⟨uses.string? "zone", uses.has "originalzone", uses.matchOptions, header, part, keys,
      ← span start⟩)

def currentDateTest (start : Position) : Parse Test := do
  let uses ← tags TagRules.currentDate
  let part ← string
  let keys ← stringList
  pure (.currentDate ⟨uses.string? "zone", uses.matchOptions, part, keys, ← span start⟩)

/-- Of two lists the first names variables. -/
def hasFlagTest (start : Position) : Parse Test := do
  let uses ← tags TagRules.matching
  let first ← stringList
  if ← isAtStringList then
    let flags ← stringList
    pure (.hasFlag ⟨uses.matchOptions, some first, flags, ← span start⟩)
  else
    pure (.hasFlag ⟨uses.matchOptions, none, first, ← span start⟩)

def stringTest (start : Position) : Parse Test := do
  let uses ← tags TagRules.matching
  let source ← stringList
  let keys ← stringList
  pure (.string ⟨uses.matchOptions, source, keys, ← span start⟩)

def ihaveTest (start : Position) : Parse Test := do
  let capabilities ← stringList
  pure (.ihave capabilities (← span start))

def duplicateTest (start : Position) : Parse Test := do
  let uses ← tags TagRules.duplicate
  pure (.duplicate
    ⟨uses.string? "handle", uses.string? "header", uses.string? "uniqueid",
      uses.number? "seconds", uses.has "last", ← span start⟩)

/-- Tests in parentheses, at least one. -/
def testList (test : Parse Test) : Parse (List Test) := do
  let _ ← expect .openParen
  let tests ← commaSeparated test
  let _ ← expect .closeParen
  pure tests

/-- An argument of a generic command or test. A test without parentheses is a list of one. -/
def argument (test : Parse Test) : Parse (Option Argument) := do
  note (.tokenClass "tag")
  note (.tokenClass "number")
  note (.tokenClass "string")
  note (.tokenClass "identifier")
  note (.literal "[")
  note (.literal "(")
  let l ← peek
  match l.token with
  | .tag name =>
    let _ ← advance
    pure (some (.tag name (← located l.location)))
  | .number _ _ => do pure (some (.number (← number)))
  | .string _ _ => do pure (some (.string (← string)))
  | .mark .openBracket => do pure (some (.strings (← stringList)))
  | .mark .openParen => do
    let tests ← testList test
    pure (some (.tests tests (← span l.location.start)))
  | .word _ => do
    let t ← test
    pure (some (.tests [t] (← span l.location.start)))
  | _ => pure none

def isTests : Argument → Bool
  | .tests _ _ => true
  | _ => false

/-- Arguments up to the first list of tests, which is the last. -/
def arguments (test : Parse Test) : Parse (List Argument) := manyUntil isTests (argument test)

/-- The rest of a test that a keyword begins. -/
def keywordTest (test : Parse Test) (start : Position) : TestKeyword → Parse Test
  | .always => do pure (.always (← span start))
  | .never => do pure (.never (← span start))
  | .negation => do
    let t ← test
    pure (.negation t (← span start))
  | .allOf => do
    let ts ← testList test
    pure (.allOf ts (← span start))
  | .anyOf => do
    let ts ← testList test
    pure (.anyOf ts (← span start))
  | .address => addressTest start
  | .envelope => envelopeTest start
  | .header => headerTest start
  | .headerExists => existsTest start
  | .size => sizeTest start
  | .body => bodyTest start
  | .date => dateTest start
  | .currentDate => currentDateTest start
  | .hasFlag => hasFlagTest start
  | .string => stringTest start
  | .ihave => ihaveTest start
  | .duplicate => duplicateTest start

def genericTest (test : Parse Test) (name : String) (start : Position) : Parse Test := do
  let args ← arguments test
  pure (.generic name args (← span start))

/-- A test, given how to read the tests within it. -/
def testWith (test : Parse Test) : Parse Test := do
  if ← isAt .openParen then
    let _ ← advance
    let t ← test
    let _ ← expect .closeParen
    pure t
  else
    note (.tokenClass "identifier")
    let l ← peek
    match l.token with
    | .word name =>
      let _ ← advance
      match TestKeyword.ofWord? name with
      | some keyword => keywordTest test l.location.start keyword
      | none => genericTest test name l.location.start
    | _ => fail

def test : (room : Nat) → Parse Test
  | 0 => fun options c => tooDeep c.current options c
  | room + 1 => fun options c => testWith (test room) options c

end MailSieve.Parse
