import MailSieve.Json.Value
import MailSieve.Script.Tree
import MailSieve.Diagnostic

/-! Trees and diagnostics as JSON.
A node is an object with its parts in order of declaration; commands, tests, arguments and the links
of an `if` chain first name their kind in `type`. Parts that are absent are left out, while truth
values, lists and match options are always written. -/

namespace MailSieve.Interchange

abbrev Members := List (String × Json)

def member (name : String) (j : Json) : Members := [(name, j)]

def optionalMember {α : Type} (name : String) (f : α → Json) : Option α → Members
  | none => []
  | some a => [(name, f a)]

def encodePosition (p : Position) : Json :=
  .object [("offset", .natural p.offset), ("line", .natural p.line), ("column", .natural p.column)]

def encodeLocation (l : Location) : Json :=
  .object [("start", encodePosition l.start), ("end", encodePosition l.stop)]

def locationMember (l : Option Location) : Members := optionalMember "location" encodeLocation l

def typed (type : String) (members : Members) : Json := .object (("type", .string type) :: members)

def stringMembers (s : StringLit) : Members :=
  [("value", .string s.value), ("multiline", .bool s.multiline)] ++ locationMember s.location

def encodeString (s : StringLit) : Json := .object (stringMembers s)

def stringListMembers (l : StringList) : Members :=
  ("values", .array (l.values.map encodeString)) :: locationMember l.location

def encodeStringList (l : StringList) : Json := .object (stringListMembers l)

def encodeQuantifier (q : Quantifier) : Json := .string q.name

def numberMembers (n : NumberLit) : Members :=
  ("value", .natural n.value.toNat) :: optionalMember "quantifier" encodeQuantifier n.quantifier
    ++ locationMember n.location

def encodeNumber (n : NumberLit) : Json := .object (numberMembers n)

def encodeRelational (r : Relational) : Json :=
  .object [("kind", .string r.kind.word), ("op", .string r.operator.word)]

def encodeOptions (o : MatchOptions) : Json :=
  .object (optionalMember "match_type" (fun m => .string m.word) o.matchType
    ++ optionalMember "relational" encodeRelational o.relational
    ++ optionalMember "comparator" encodeString o.comparator)

def encodeTransform : BodyTransform → Json
  | .raw => typed "raw" []
  | .text => typed "text" []
  | .content types => typed "content" [("content_types", encodeStringList types)]

def addressPartMember (p : Option AddressPart) : Members :=
  optionalMember "address_part" (fun p => .string p.word) p

def addressMembers (t : AddressTest) : Members :=
  addressPartMember t.addressPart
    ++ [("options", encodeOptions t.options), ("headers", encodeStringList t.headers),
      ("keys", encodeStringList t.keys)]
    ++ locationMember t.location

def envelopeMembers (t : EnvelopeTest) : Members :=
  addressPartMember t.addressPart
    ++ [("options", encodeOptions t.options),
      ("envelope_parts", encodeStringList t.envelopeParts), ("keys", encodeStringList t.keys)]
    ++ locationMember t.location

def headerMembers (t : HeaderTest) : Members :=
  [("options", encodeOptions t.options), ("headers", encodeStringList t.headers),
    ("keys", encodeStringList t.keys)]
    ++ locationMember t.location

def sizeMembers (t : SizeTest) : Members :=
  [("over", .bool t.above), ("size", encodeNumber t.size)] ++ locationMember t.location

def bodyMembers (t : BodyTest) : Members :=
  optionalMember "transform" encodeTransform t.transform
    ++ [("options", encodeOptions t.options), ("keys", encodeStringList t.keys)]
    ++ locationMember t.location

def dateMembers (t : DateTest) : Members :=
  optionalMember "zone" encodeString t.zone
    ++ [("original_zone", .bool t.originalZone), ("options", encodeOptions t.options),
      ("header", encodeString t.header), ("date_part", encodeString t.datePart),
      ("keys", encodeStringList t.keys)]
    ++ locationMember t.location

def currentDateMembers (t : CurrentDateTest) : Members :=
  optionalMember "zone" encodeString t.zone
    ++ [("options", encodeOptions t.options), ("date_part", encodeString t.datePart),
      ("keys", encodeStringList t.keys)]
    ++ locationMember t.location

def hasFlagMembers (t : HasFlagTest) : Members :=
  ("options", encodeOptions t.options)
    :: optionalMember "variable_names" encodeStringList t.variableNames
    ++ [("flags", encodeStringList t.flags)]
    ++ locationMember t.location

def stringTestMembers (t : StringTest) : Members :=
  [("options", encodeOptions t.options), ("source", encodeStringList t.source),
    ("keys", encodeStringList t.keys)]
    ++ locationMember t.location

def duplicateMembers (t : DuplicateTest) : Members :=
  optionalMember "handle" encodeString t.handle
    ++ optionalMember "header" encodeString t.header
    ++ optionalMember "unique_id" encodeString t.uniqueId
    ++ optionalMember "seconds" encodeNumber t.seconds
    ++ [("last", .bool t.last)]
    ++ locationMember t.location

mutual

def encodeTest : Test → Json
  | .always l => typed "True" (locationMember l)
  | .never l => typed "False" (locationMember l)
  | .negation t l => typed "Not" (("test", encodeTest t) :: locationMember l)
  | .allOf ts l => typed "AllOf" (("tests", .array (encodeTests ts)) :: locationMember l)
  | .anyOf ts l => typed "AnyOf" (("tests", .array (encodeTests ts)) :: locationMember l)
  | .address t => typed "Address" (addressMembers t)
  | .header t => typed "Header" (headerMembers t)
  | .envelope t => typed "Envelope" (envelopeMembers t)
  | .headerExists headers l =>
    typed "Exists" (("headers", encodeStringList headers) :: locationMember l)
  | .size t => typed "Size" (sizeMembers t)
  | .body t => typed "Body" (bodyMembers t)
  | .date t => typed "Date" (dateMembers t)
  | .currentDate t => typed "CurrentDate" (currentDateMembers t)
  | .hasFlag t => typed "HasFlag" (hasFlagMembers t)
  | .string t => typed "String" (stringTestMembers t)
  | .ihave capabilities l =>
    typed "Ihave" (("capabilities", encodeStringList capabilities) :: locationMember l)
  | .duplicate t => typed "Duplicate" (duplicateMembers t)
  | .generic name arguments l =>
    typed "Generic"
      ([("name", .string name), ("arguments", .array (encodeArguments arguments))]
        ++ locationMember l)

def encodeTests : List Test → List Json
  | [] => []
  | t :: ts => encodeTest t :: encodeTests ts

def encodeArgument : Argument → Json
  | .tag name l => typed "Tag" (("name", .string name) :: locationMember l)
  | .number n => typed "Number" (numberMembers n)
  | .string s => typed "String" (stringMembers s)
  | .strings l => typed "StringList" (stringListMembers l)
  | .tests ts l => typed "TestList" (("tests", .array (encodeTests ts)) :: locationMember l)

def encodeArguments : List Argument → List Json
  | [] => []
  | a :: as => encodeArgument a :: encodeArguments as

end

def genericMembers (name : String) (arguments : List Argument) : Members :=
  [("name", .string name), ("arguments", .array (encodeArguments arguments))]

def requireMembers (c : RequireCommand) : Members :=
  ("capabilities", .array (c.capabilities.map .string)) :: locationMember c.location

def flagsMember (flags : Option StringList) : Members :=
  optionalMember "flags" encodeStringList flags

def keepMembers (c : KeepCommand) : Members := flagsMember c.flags ++ locationMember c.location

def fileIntoMembers (c : FileIntoCommand) : Members :=
  [("mailbox", encodeString c.mailbox), ("copy", .bool c.copy), ("create", .bool c.create)]
    ++ flagsMember c.flags ++ locationMember c.location

def redirectMembers (c : RedirectCommand) : Members :=
  [("address", encodeString c.address), ("copy", .bool c.copy)] ++ locationMember c.location

def rejectMembers (c : RejectCommand) : Members :=
  ("reason", encodeString c.reason) :: locationMember c.location

def setMembers (c : SetCommand) : Members :=
  [("modifiers", .array (c.modifiers.map fun m => .string m.word)),
    ("name", encodeString c.name), ("value", encodeString c.value)]
    ++ locationMember c.location

def vacationMembers (c : VacationCommand) : Members :=
  ("reason", encodeString c.reason)
    :: optionalMember "days" encodeNumber c.days
    ++ optionalMember "seconds" encodeNumber c.seconds
    ++ optionalMember "subject" encodeString c.subject
    ++ optionalMember "from" encodeString c.sender
    ++ optionalMember "addresses" encodeStringList c.addresses
    ++ [("mime", .bool c.mime)]
    ++ optionalMember "handle" encodeString c.handle
    ++ locationMember c.location

def flagMembers (c : FlagCommand) : Members :=
  ("action", .string c.action.word)
    :: optionalMember "variable_name" encodeString c.variableName
    ++ [("flags", encodeStringList c.flags)]
    ++ locationMember c.location

def notifyMembers (c : NotifyCommand) : Members :=
  ("method", encodeString c.method)
    :: optionalMember "from" encodeString c.sender
    ++ optionalMember "importance" (fun i => .string i.name) c.importance
    ++ optionalMember "options" encodeStringList c.options
    ++ optionalMember "message" encodeString c.message
    ++ locationMember c.location

mutual

def encodeCommand : Command → Json
  | .require c => typed "Require" (requireMembers c)
  | .ifTest test body chain l =>
    typed "If"
      ([("test", encodeTest test), ("consequent", encodeBlock body)] ++ chainMember chain
        ++ locationMember l)
  | .stop l => typed "Stop" (locationMember l)
  | .keep c => typed "Keep" (keepMembers c)
  | .fileInto c => typed "Fileinto" (fileIntoMembers c)
  | .redirect c => typed "Redirect" (redirectMembers c)
  | .discard l => typed "Discard" (locationMember l)
  | .reject c => typed "Reject" (rejectMembers c)
  | .setVariable c => typed "Set" (setMembers c)
  | .vacation c => typed "Vacation" (vacationMembers c)
  | .flag c => typed "Flag" (flagMembers c)
  | .notify c => typed "Notify" (notifyMembers c)
  | .generic name arguments l =>
    typed "Generic" (genericMembers name arguments ++ locationMember l)
  | .genericBlock name arguments body l =>
    typed "Generic"
      (genericMembers name arguments ++ [("block", encodeBlock body)] ++ locationMember l)

def encodeCommands : List Command → List Json
  | [] => []
  | c :: cs => encodeCommand c :: encodeCommands cs

def encodeBlock : Block → Json
  | .mk commands l => .object (("commands", .array (encodeCommands commands)) :: locationMember l)

/-- The member that holds the rest of an `if` chain, if there is a rest. -/
def chainMember : Chain → Members
  | .done => []
  | .elsif test body chain l =>
    [("alternate",
      typed "ElsIf"
        ([("test", encodeTest test), ("consequent", encodeBlock body)] ++ chainMember chain
          ++ locationMember l))]
  | .otherwise body l =>
    [("alternate", typed "Else" (("consequent", encodeBlock body) :: locationMember l))]

end

def encodeScript (s : Script) : Json :=
  .object (("commands", .array (encodeCommands s.commands)) :: locationMember s.location)

def expectedKindName : ExpectedKind → String
  | .literal => "literal"
  | .tokenClass => "class"
  | .endOfInput => "end"

def encodeExpected (e : Expected) : Json :=
  .object [("kind", .string (expectedKindName e.kind)), ("description", .string e.description)]

def diagnosticKindName : DiagnosticKind → String
  | .lexical => "lexical"
  | .grammatical => "syntax"

def encodeDiagnostic (d : Diagnostic) : Json :=
  .object
    ([("kind", .string (diagnosticKindName d.kind)), ("message", .string d.message),
        ("location", encodeLocation d.location)]
      ++ optionalMember "found" .string d.found
      ++ [("expected", .array (d.expected.map encodeExpected))])

end MailSieve.Interchange
