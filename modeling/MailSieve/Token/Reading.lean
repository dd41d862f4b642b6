import MailSieve.Token.Scan
import MailSieve.Source
import MailSieve.Diagnostic

/-! The tokens of a source with their places.
Reading goes on after a fault where its location ends, so that every source is read to its end; the
last item is the end of the input. -/

namespace MailSieve

structure Lexeme where
  token : Token
  location : Location
  text : List Char
deriving DecidableEq

/-- A place where the source is no token. -/
structure Misreading where
  fault : LexicalFault
  location : Location
deriving DecidableEq

namespace Misreading

def diagnostic (m : Misreading) : Diagnostic :=
  .lexical m.fault.message m.location.start m.location.stop

end Misreading

abbrev Reading := Except Misreading Lexeme

instance decEqExcept {ε α : Type} [DecidableEq ε] [DecidableEq α] : DecidableEq (Except ε α)
  | .ok a, .ok b => decidable_of_iff (a = b) (by simp)
  | .error e, .error f => decidable_of_iff (e = f) (by simp)
  | .ok _, .error _ | .error _, .ok _ => .isFalse (by simp)

namespace Scan

/-- The place of a step that begins at `p`. -/
def locate (s : Scan) (p : Position) : Location :=
  let start := p.after s.before
  ⟨start, start.after s.text⟩

def reading (s : Scan) (p : Position) : Reading :=
  match s.outcome with
  | .ok token => .ok ⟨token, s.locate p, s.text⟩
  | .error fault => .error ⟨fault, s.locate p⟩

end Scan

def readingsFrom (p : Position) (cs : List Char) : List Reading :=
  let s := scan cs
  if s.atEnd then [s.reading p]
  else s.reading p :: readingsFrom (s.locate p).stop s.rest
termination_by cs.length
decreasing_by exact rest_length_lt ‹_›

def readings (source : String) : List Reading := readingsFrom .origin source.toList

end MailSieve
