import MailSieve.Grammar.Command

/-! Scripts: commands up to the end of the input. -/

namespace MailSieve

namespace Parse

def commandOrEnd (command : Parse Command) : Parse (Option Command) := do
  note .endOfInput
  let l ← peek
  if l.token = .endOfInput then pure none
  else
    let c ← command
    pure (some c)

/-- A whole script, from the start of the source to its end. -/
def script : Parse Script := do
  let options ← read
  let commands ← many (commandOrEnd (command options.maxDepth))
  let l ← peek
  pure ⟨commands, ← located ⟨.origin, l.location.stop⟩⟩

end Parse

namespace Script

def parse (options : ParseOptions) (source : String) : Except Fault Script := do
  let c ← Cursor.ofReadings (readings source)
  let (s, _) ← Parse.script options c
  pure s

/-- The report on a source that is no script. -/
def error? (source : String) : Option Diagnostic :=
  match parse .standard source with
  | .ok _ => none
  | .error f => some f.diagnostic

def isValid (source : String) : Bool := (error? source).isNone

end Script

end MailSieve
