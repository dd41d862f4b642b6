import MailSieve.Source
import MailSieve.Text.Lines
import MailSieve.Text.Digits
import MailSieve.Text.Escaped

/-! Reports of a failed reading.
A diagnostic says what went wrong and where, which text stood there (nothing at the end of the
input) and which alternatives were acceptable, in ascending order of description. `display` is the
one-line form, `render` the form that shows the source line with carets under the place. -/

namespace MailSieve

inductive ExpectedKind where
  | literal
  | tokenClass
  | endOfInput
deriving DecidableEq

structure Expected where
  kind : ExpectedKind
  description : String
deriving DecidableEq

namespace Expected

def literal (text : String) : Expected := ⟨.literal, "\"" ++ text ++ "\""⟩

def tokenClass (name : String) : Expected := ⟨.tokenClass, name⟩

def endOfInput : Expected := ⟨.endOfInput, "end of input"⟩

/-- Equal neighbours count once. -/
def merge : List Expected → List Expected
  | [] => []
  | [e] => [e]
  | e :: f :: es => if e = f then merge (f :: es) else e :: merge (f :: es)

/-- Ascending by description, entries with one description in the order given. -/
def sort (es : List Expected) : List Expected :=
  es.mergeSort fun a b => decide (a.description ≤ b.description)

def arrange (es : List Expected) : List Expected := merge (sort es)

/-- The alternatives as they are read aloud. -/
def phrase : List Expected → String
  | [] => "nothing"
  | [e] => e.description
  | [e, f] => e.description ++ " or " ++ f.description
  | es =>
    ", ".intercalate (es.dropLast.map (·.description)) ++ ", or "
      ++ (es.getLast?.map (·.description)).getD ""

end Expected

inductive DiagnosticKind where
  | lexical
  | grammatical
deriving DecidableEq

structure Diagnostic where
  kind : DiagnosticKind
  message : String
  location : Location
  found : Option String
  expected : List Expected
deriving DecidableEq

namespace Diagnostic

def lexical (message : String) (start stop : Position) : Diagnostic :=
  ⟨.lexical, message, ⟨start, stop⟩, none, []⟩

def grammatical (message : String) (location : Location) (found : Option String) : Diagnostic :=
  ⟨.grammatical, message, location, found, []⟩

def withExpected (d : Diagnostic) (es : List Expected) : Diagnostic :=
  { d with expected := Expected.arrange es }

def foundPhrase : Option String → String
  | some text => "\"" ++ Text.escaped text ++ "\""
  | none => "end of input"

def expectedMessage (es : List Expected) (found : Option String) : String :=
  "Expected " ++ Expected.phrase es ++ " but " ++ foundPhrase found ++ " found."

def unexpected (location : Location) (found : Option String) (es : List Expected) : Diagnostic :=
  let es := Expected.arrange es
  ⟨.grammatical, expectedMessage es found, location, found, es⟩

def line (d : Diagnostic) : Nat := d.location.start.line

def column (d : Diagnostic) : Nat := d.location.start.column

/-- The message without its final periods, and the place. -/
def displayChars (d : Diagnostic) : List Char :=
  (d.message.toList.reverse.dropWhile (· = '.')).reverse
    ++ " at line ".toList ++ Text.decimal d.line ++ ", column ".toList ++ Text.decimal d.column

def display (d : Diagnostic) : String := String.ofList d.displayChars

/-- A location within one line is underlined as a whole, any other at its first column only. -/
def caretCount (d : Diagnostic) : Nat :=
  if d.location.stop.line = d.line then max (d.location.stop.column - d.column) 1 else 1

def sourceLine (d : Diagnostic) (source : List Char) : List Char :=
  ((Text.lines source)[d.line - 1]?).getD []

def renderLines (d : Diagnostic) (source origin : List Char) : List (List Char) :=
  let number := Text.decimal d.line
  let pad := List.replicate number.length ' '
  [ "error: ".toList ++ d.message.toList,
    pad ++ "--> ".toList ++ origin ++ [':'] ++ number ++ [':'] ++ Text.decimal d.column,
    pad ++ " |".toList,
    number ++ " | ".toList ++ d.sourceLine source,
    pad ++ " | ".toList ++ List.replicate (d.column - 1) ' ' ++ List.replicate d.caretCount '^' ]

def render (d : Diagnostic) (source origin : String) : String :=
  String.ofList (List.intercalate ['\n'] (d.renderLines source.toList origin.toList))

end Diagnostic

end MailSieve
