import MailSieve.Script.Tree
import MailSieve.Script.Keyword

/-! Checked construction of nodes.
A list that a script must not leave empty has at least one member, a generic command or test is not
named by a keyword of its own position, and every name is an identifier: an ASCII letter or an
underscore, then letters, digits and underscores. A quantified number fits in 64 bits once it is
multiplied out. -/

namespace MailSieve

inductive TreeFlaw where
  | emptyStringList
  | emptyTestList (what : String)
  | emptyRequire
  | invalidIdentifier (name : String)
  | reservedName (name : String)
  | numberOverflow (value : UInt64) (quantifier : Quantifier)
deriving DecidableEq

namespace TreeFlaw

def message : TreeFlaw → String
  | emptyStringList => "string list must contain at least one string"
  | emptyTestList what => what ++ " requires at least one test"
  | emptyRequire => "require needs at least one capability"
  | invalidIdentifier name => "'" ++ name ++ "' is not a valid identifier"
  | reservedName name => "'" ++ name ++ "' is a keyword and cannot name a generic node"
  | numberOverflow value q => toString value.toNat ++ q.name ++ " does not fit in 64 bits"

end TreeFlaw

def isWordStart (c : Char) : Bool := c.isAlpha || c == '_'

def isWordPart (c : Char) : Bool := c.isAlphanum || c == '_'

def isIdentifier (s : String) : Bool :=
  match s.toList with
  | [] => false
  | c :: cs => isWordStart c && cs.all isWordPart

def checkIdentifier (name : String) : Except TreeFlaw String :=
  if isIdentifier name then .ok name else .error (.invalidIdentifier name)

/-- A generic command named by a keyword would be read back as the keyword's own command. -/
def checkCommandName (name : String) : Except TreeFlaw String :=
  if !isIdentifier name then .error (.invalidIdentifier name)
  else if (CommandKeyword.ofWord? name).isSome then .error (.reservedName name)
  else .ok name

def checkTestName (name : String) : Except TreeFlaw String :=
  if !isIdentifier name then .error (.invalidIdentifier name)
  else if (TestKeyword.ofWord? name).isSome then .error (.reservedName name)
  else .ok name

def checkCapabilities (capabilities : List String) : Except TreeFlaw (List String) :=
  if capabilities.isEmpty then .error .emptyRequire else .ok capabilities

def checkTests (what : String) (tests : List Test) : Except TreeFlaw (List Test) :=
  if tests.isEmpty then .error (.emptyTestList what) else .ok tests

def checkStrings (values : List StringLit) : Except TreeFlaw (List StringLit) :=
  if values.isEmpty then .error .emptyStringList else .ok values

def fitsWord (n : Nat) : Bool := n < UInt64.size

namespace StringLit

def quoted (value : String) : StringLit := ⟨value, false, none⟩

def textBlock (value : String) : StringLit := ⟨value, true, none⟩

end StringLit

namespace StringList

def ofValues (values : List StringLit) : Except TreeFlaw StringList :=
  (checkStrings values).map fun values => ⟨values, none⟩

def single (s : StringLit) : StringList := ⟨[s], none⟩

def strings (l : StringList) : List String := l.values.map (·.value)

end StringList

namespace NumberLit

def plain (value : UInt64) : NumberLit := ⟨value, none, none⟩

/-- The literal that writes `value` before the quantifier's letter. -/
def quantified (value : UInt64) (q : Quantifier) : Except TreeFlaw NumberLit :=
  if fitsWord (value.toNat * q.multiplier) then
    .ok ⟨UInt64.ofNat (value.toNat * q.multiplier), some q, none⟩
  else .error (.numberOverflow value q)

end NumberLit

namespace RequireCommand

def ofCapabilities (capabilities : List String) : Except TreeFlaw RequireCommand :=
  (checkCapabilities capabilities).map fun capabilities => ⟨capabilities, none⟩

end RequireCommand

namespace Test

def ofAll (tests : List Test) : Except TreeFlaw Test :=
  (checkTests "allof" tests).map fun tests => allOf tests none

def ofAny (tests : List Test) : Except TreeFlaw Test :=
  (checkTests "anyof" tests).map fun tests => anyOf tests none

def ofGeneric (name : String) (arguments : List Argument) : Except TreeFlaw Test :=
  (checkTestName name).map fun name => generic name arguments none

end Test

namespace Argument

def ofTag (name : String) : Except TreeFlaw Argument :=
  (checkIdentifier name).map fun name => tag name none

end Argument

namespace Command

/-- A generic command ends in a semicolon unless it has a block. -/
def ofGeneric (name : String) (arguments : List Argument) (body : Option Block) :
    Except TreeFlaw Command :=
  (checkCommandName name).map fun name =>
    match body with
    | none => generic name arguments none
    | some body => genericBlock name arguments body none

end Command

end MailSieve
