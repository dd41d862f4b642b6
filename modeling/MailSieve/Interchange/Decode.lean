import MailSieve.Json.Decode
import MailSieve.Script.Check
import MailSieve.Diagnostic

/-! Trees and diagnostics out of JSON.
The checks of hand-built nodes are applied to every node that is read, so that a tree out of JSON is
as sound as one that was built by them. A tree is read down to the depth at which its value is
nested. Whatever lies within a command, a test or an argument was read as a whole before it is
looked at; there a variant may go by its number. -/

namespace MailSieve.Interchange
open Json Json.Record

abbrev Error := DecodeError TreeFlaw

abbrev TreeDecoder (α : Type) := Decoder TreeFlaw α

def decodePosition : TreeDecoder Position :=
  (Position.mk <$> field "offset" decodeNatural <*> field "line" decodeNatural
    <*> field "column" decodeNatural : Record TreeFlaw Position).decode

def decodeLocation : TreeDecoder Location :=
  (Location.mk <$> field "start" decodePosition <*> field "end" decodePosition
    : Record TreeFlaw Location).decode

def locationField : Record TreeFlaw (Option Location) := optional "location" decodeLocation

def flagField (name : String) : Record TreeFlaw Bool := default name false decodeBool

def named {α : Type} (word : α → String) (values : List α) : List (String × α) :=
  values.map fun a => (word a, a)

/-- Within a tree a word may also be the only member of an object that holds nothing. -/
def decodeWordOf {α : Type} (known : List (String × α)) : TreeDecoder α :=
  decodeName decodeNullOrEmpty known

def stringRecord : Record TreeFlaw StringLit :=
  StringLit.mk <$> field "value" decodeString <*> flagField "multiline" <*> locationField

def decodeStringLit : TreeDecoder StringLit := stringRecord.decode

def stringListRecord : Record TreeFlaw StringList :=
  StringList.mk <$> field "values" (decodeList decodeStringLit) <*> locationField

def checkStringList (l : StringList) : Except TreeFlaw StringList :=
  (checkStrings l.values).map fun _ => l

def decodeStringList : TreeDecoder StringList :=
  decodeChecked stringListRecord.decode checkStringList

def quantifierNames : List (String × Quantifier) := named Quantifier.name Quantifier.values

/-- A quantifier that stands by itself, outside a tree. -/
def decodeQuantifier : TreeDecoder Quantifier := decodeName decodeNull quantifierNames

def numberRecord : Record TreeFlaw NumberLit :=
  NumberLit.mk <$> field "value" decodeWord
    <*> optional "quantifier" (decodeWordOf quantifierNames) <*> locationField

def decodeNumber : TreeDecoder NumberLit := numberRecord.decode

def decodeRelational : TreeDecoder Relational :=
  (Relational.mk
    <$> field "kind" (decodeWordOf (named RelationalKind.word RelationalKind.values))
    <*> field "op" (decodeWordOf (named RelationalOperator.word RelationalOperator.values))
    : Record TreeFlaw Relational).decode

def decodeOptions : TreeDecoder MatchOptions :=
  (MatchOptions.mk
    <$> optional "match_type" (decodeWordOf (named MatchType.word MatchType.values))
    <*> optional "relational" decodeRelational
    <*> optional "comparator" decodeStringLit : Record TreeFlaw MatchOptions).decode

def optionsField : Record TreeFlaw MatchOptions :=
  default "options" ⟨none, none, none⟩ decodeOptions

def addressPartField : Record TreeFlaw (Option AddressPart) :=
  optional "address_part" (decodeWordOf (named AddressPart.word AddressPart.values))

def stringsField (name : String) : Record TreeFlaw StringList := field name decodeStringList

def optionalStrings (name : String) : Record TreeFlaw (Option StringList) :=
  optional name decodeStringList

def stringField (name : String) : Record TreeFlaw StringLit := field name decodeStringLit

def optionalString (name : String) : Record TreeFlaw (Option StringLit) :=
  optional name decodeStringLit

def optionalNumber (name : String) : Record TreeFlaw (Option NumberLit) :=
  optional name decodeNumber

inductive TransformKind where
  | raw
  | text
  | content

def transformKinds : List (String × TransformKind) :=
  [("raw", .raw), ("text", .text), ("content", .content)]

/-- The content types that stand beside a transform's name, or their absence. -/
def transformOf (kind : TransformKind) (types : Option Json) : Except Error BodyTransform :=
  match kind, types with
  | .raw, none => .ok .raw
  | .raw, some j => (decodeNull j).map fun _ => .raw
  | .text, none => .ok .text
  | .text, some j => (decodeNull j).map fun _ => .text
  | .content, none => .error (.missingField "content_types")
  | .content, some j => (decodeStringList j).map .content

def isTransformMember (name : String) : Bool := name == "type" || name == "content_types"

/-- Once its kind and its types have been met, a transform may name neither again. -/
def transformRest : Json.Members → Except Error Unit
  | [] => .ok ()
  | (name, _) :: _ => .error (.duplicateField name)

/-- A transform whose kind and types have been met, with the members after them. -/
def transformOfBoth (kind types : Json) (rest : Json.Members) : Except Error BodyTransform := do
  let transform ← transformOf (← decodeWordOf transformKinds kind) (some types)
  transformRest rest
  pure transform

/-- A transform out of the members that count. The second is met before the types are read, and
after the kind where that stands first. -/
def transformOfMembers : Json.Members → Except Error BodyTransform
  | [] => .error (.missingField "type")
  | [(name, j)] => do
    if name != "type" then throw (.missingField "type")
    transformOf (← decodeWordOf transformKinds j) none
  | (first, i) :: (second, j) :: rest =>
    match first == "type", second == "type" with
    | true, true => do
      let _ ← decodeWordOf transformKinds i
      throw (.duplicateField "type")
    | true, false => transformOfBoth i j rest
    | false, true => transformOfBoth j i rest
    | false, false => .error (.duplicateField "content_types")

/-- A transform as a list of its kind and its types, where null stands for no types. -/
def transformOfItems : List Json → Except Error BodyTransform
  | [] => .error .wrongValue
  | [kind] => do
    let _ ← decodeWordOf transformKinds kind
    throw .wrongValue
  | kind :: types :: rest => do
    let transform ← transformOf (← decodeWordOf transformKinds kind) (some types)
    noMore rest
    pure transform

def decodeTransform : TreeDecoder BodyTransform
  | .object ms =>
    match faultMembers? ms with
    | some f => .error (.text f)
    | none => transformOfMembers (ms.filter fun m => isTransformMember m.1)
  | .array items =>
    match faultItems? items with
    | some f => .error (.text f)
    | none => transformOfItems items
  | j => .error (mismatch j)

def addressRecord : Record TreeFlaw AddressTest :=
  AddressTest.mk <$> addressPartField <*> optionsField <*> stringsField "headers"
    <*> stringsField "keys" <*> locationField

def envelopeRecord : Record TreeFlaw EnvelopeTest :=
  EnvelopeTest.mk <$> addressPartField <*> optionsField <*> stringsField "envelope_parts"
    <*> stringsField "keys" <*> locationField

def headerRecord : Record TreeFlaw HeaderTest :=
  HeaderTest.mk <$> optionsField <*> stringsField "headers" <*> stringsField "keys"
    <*> locationField

def sizeRecord : Record TreeFlaw SizeTest :=
  SizeTest.mk <$> field "over" decodeBool <*> field "size" decodeNumber <*> locationField

def bodyRecord : Record TreeFlaw BodyTest :=
  BodyTest.mk <$> optional "transform" decodeTransform <*> optionsField <*> stringsField "keys"
    <*> locationField

def dateRecord : Record TreeFlaw DateTest :=
  DateTest.mk <$> optionalString "zone" <*> flagField "original_zone" <*> optionsField
    <*> stringField "header" <*> stringField "date_part" <*> stringsField "keys" <*> locationField

def currentDateRecord : Record TreeFlaw CurrentDateTest :=
  CurrentDateTest.mk <$> optionalString "zone" <*> optionsField <*> stringField "date_part"
    <*> stringsField "keys" <*> locationField

def hasFlagRecord : Record TreeFlaw HasFlagTest :=
  HasFlagTest.mk <$> optionsField <*> optionalStrings "variable_names" <*> stringsField "flags"
    <*> locationField

def stringTestRecord : Record TreeFlaw StringTest :=
  StringTest.mk <$> optionsField <*> stringsField "source" <*> stringsField "keys"
    <*> locationField

def duplicateRecord : Record TreeFlaw DuplicateTest :=
  DuplicateTest.mk <$> optionalString "handle" <*> optionalString "header"
    <*> optionalString "unique_id" <*> optionalNumber "seconds" <*> flagField "last"
    <*> locationField

inductive TestKind where
  | always | never | negation | allOf | anyOf | address | header | envelope | headerExists | size
  | body | date | currentDate | hasFlag | string | ihave | duplicate | generic

def testKinds : List (String × TestKind) :=
  [("True", .always), ("False", .never), ("Not", .negation), ("AllOf", .allOf), ("AnyOf", .anyOf),
    ("Address", .address), ("Header", .header), ("Envelope", .envelope),
    ("Exists", .headerExists), ("Size", .size), ("Body", .body), ("Date", .date),
    ("CurrentDate", .currentDate), ("HasFlag", .hasFlag), ("String", .string), ("Ihave", .ihave),
    ("Duplicate", .duplicate), ("Generic", .generic)]

inductive ArgumentKind where
  | tag | number | string | strings | tests

def argumentKinds : List (String × ArgumentKind) :=
  [("Tag", .tag), ("Number", .number), ("String", .string), ("StringList", .strings),
    ("TestList", .tests)]

def testsField (what : String) (test : TreeDecoder Test) : Record TreeFlaw (List Test) :=
  field "tests" (decodeChecked (decodeList test) (checkTests what))

def argumentsField (argument : TreeDecoder Argument) : Record TreeFlaw (List Argument) :=
  default "arguments" [] (decodeList argument)

/-- A test of a known kind, given how to read the tests and arguments within it. -/
def testOf (test : TreeDecoder Test) (argument : TreeDecoder Argument) :
    TestKind → TreeDecoder Test
  | .always => (Test.always <$> locationField : Record TreeFlaw Test).decode
  | .never => (Test.never <$> locationField : Record TreeFlaw Test).decode
  | .negation => (Test.negation <$> field "test" test <*> locationField
      : Record TreeFlaw Test).decode
  | .allOf => (Test.allOf <$> testsField "allof" test <*> locationField
      : Record TreeFlaw Test).decode
  | .anyOf => (Test.anyOf <$> testsField "anyof" test <*> locationField
      : Record TreeFlaw Test).decode
  | .address => (Test.address <$> addressRecord : Record TreeFlaw Test).decode
  | .header => (Test.header <$> headerRecord : Record TreeFlaw Test).decode
  | .envelope => (Test.envelope <$> envelopeRecord : Record TreeFlaw Test).decode
  | .headerExists => (Test.headerExists <$> stringsField "headers" <*> locationField
      : Record TreeFlaw Test).decode
  | .size => (Test.size <$> sizeRecord : Record TreeFlaw Test).decode
  | .body => (Test.body <$> bodyRecord : Record TreeFlaw Test).decode
  | .date => (Test.date <$> dateRecord : Record TreeFlaw Test).decode
  | .currentDate => (Test.currentDate <$> currentDateRecord : Record TreeFlaw Test).decode
  | .hasFlag => (Test.hasFlag <$> hasFlagRecord : Record TreeFlaw Test).decode
  | .string => (Test.string <$> stringTestRecord : Record TreeFlaw Test).decode
  | .ihave => (Test.ihave <$> stringsField "capabilities" <*> locationField
      : Record TreeFlaw Test).decode
  | .duplicate => (Test.duplicate <$> duplicateRecord : Record TreeFlaw Test).decode
  | .generic =>
    (Test.generic <$> field "name" (decodeChecked decodeString checkTestName)
      <*> argumentsField argument <*> locationField : Record TreeFlaw Test).decode

def argumentOf (test : TreeDecoder Test) : ArgumentKind → TreeDecoder Argument
  | .tag =>
    (Argument.tag <$> field "name" (decodeChecked decodeString checkIdentifier) <*> locationField
      : Record TreeFlaw Argument).decode
  | .number => (Argument.number <$> numberRecord : Record TreeFlaw Argument).decode
  | .string => (Argument.string <$> stringRecord : Record TreeFlaw Argument).decode
  | .strings => fun j => (decodeStringList j).map .strings
  | .tests =>
    (Argument.tests <$> testsField "a test list" test <*> locationField
      : Record TreeFlaw Argument).decode

mutual

/-- Reads a test within a tree, whose value is nested less than `fuel` levels deep. -/
def testDecoder (fuel : Nat) (j : Json) : Except Error Test :=
  match fuel with
  | 0 => .error (mismatch j)
  | fuel + 1 =>
    decodeTagged (decodeVariantOrNumber testKinds)
      (testOf (testDecoder fuel) (argumentDecoder fuel)) j

def argumentDecoder (fuel : Nat) (j : Json) : Except Error Argument :=
  match fuel with
  | 0 => .error (mismatch j)
  | fuel + 1 =>
    decodeTagged (decodeVariantOrNumber argumentKinds) (argumentOf (testDecoder fuel)) j

end

/-- Enough for every value within `j`. -/
def fuelFor (j : Json) : Nat := j.depth + 1

def decodeInnerTest : TreeDecoder Test := fun j => testDecoder (fuelFor j) j

def decodeInnerArgument : TreeDecoder Argument := fun j => argumentDecoder (fuelFor j) j

/-- A test that stands by itself. -/
def decodeTest : TreeDecoder Test :=
  decodeTagged (decodeVariant testKinds) (testOf decodeInnerTest decodeInnerArgument)

def decodeArgument : TreeDecoder Argument :=
  decodeTagged (decodeVariant argumentKinds) (argumentOf decodeInnerTest)

def requireRecord : Record TreeFlaw RequireCommand :=
  RequireCommand.mk
    <$> field "capabilities" (decodeChecked (decodeList decodeString) checkCapabilities)
    <*> locationField

def keepRecord : Record TreeFlaw KeepCommand :=
  KeepCommand.mk <$> optionalStrings "flags" <*> locationField

def fileIntoRecord : Record TreeFlaw FileIntoCommand :=
  FileIntoCommand.mk <$> stringField "mailbox" <*> flagField "copy" <*> flagField "create"
    <*> optionalStrings "flags" <*> locationField

def redirectRecord : Record TreeFlaw RedirectCommand :=
  RedirectCommand.mk <$> stringField "address" <*> flagField "copy" <*> locationField

def rejectRecord : Record TreeFlaw RejectCommand :=
  RejectCommand.mk <$> stringField "reason" <*> locationField

def setRecord : Record TreeFlaw SetCommand :=
  SetCommand.mk
    <$> default "modifiers" []
      (decodeList (decodeWordOf (named SetModifier.word SetModifier.values)))
    <*> stringField "name" <*> stringField "value" <*> locationField

def vacationRecord : Record TreeFlaw VacationCommand :=
  VacationCommand.mk <$> stringField "reason" <*> optionalNumber "days"
    <*> optionalNumber "seconds" <*> optionalString "subject" <*> optionalString "from"
    <*> optionalStrings "addresses" <*> flagField "mime" <*> optionalString "handle"
    <*> locationField

def flagRecord : Record TreeFlaw FlagCommand :=
  FlagCommand.mk <$> field "action" (decodeWordOf (named FlagAction.word FlagAction.values))
    <*> optionalString "variable_name" <*> stringsField "flags" <*> locationField

def notifyRecord : Record TreeFlaw NotifyCommand :=
  NotifyCommand.mk <$> stringField "method" <*> optionalString "from"
    <*> optional "importance" (decodeWordOf (named Importance.name Importance.values))
    <*> optionalStrings "options" <*> optionalString "message" <*> locationField

inductive CommandKind where
  | require | ifTest | stop | keep | fileInto | redirect | discard | reject | setVariable
  | vacation | flag | notify | generic

def commandKinds : List (String × CommandKind) :=
  [("Require", .require), ("If", .ifTest), ("Stop", .stop), ("Keep", .keep),
    ("Fileinto", .fileInto), ("Redirect", .redirect), ("Discard", .discard),
    ("Reject", .reject), ("Set", .setVariable), ("Vacation", .vacation), ("Flag", .flag),
    ("Notify", .notify), ("Generic", .generic)]

inductive LinkKind where
  | elsif | otherwise

def linkKinds : List (String × LinkKind) := [("ElsIf", .elsif), ("Else", .otherwise)]

/-- The rest of an `if` chain, which ends where no member holds it. -/
def chainField (link : TreeDecoder Chain) : Record TreeFlaw Chain :=
  (fun chain => chain.getD .done) <$> optional "alternate" link

def genericCommand (name : String) (arguments : List Argument) (body : Option Block)
    (l : Option Location) : Command :=
  match body with
  | none => .generic name arguments l
  | some body => .genericBlock name arguments body l

def commandOf (block : TreeDecoder Block) (link : TreeDecoder Chain) :
    CommandKind → TreeDecoder Command
  | .require => (Command.require <$> requireRecord : Record TreeFlaw Command).decode
  | .ifTest =>
    (Command.ifTest <$> field "test" decodeInnerTest <*> field "consequent" block
      <*> chainField link <*> locationField : Record TreeFlaw Command).decode
  | .stop => (Command.stop <$> locationField : Record TreeFlaw Command).decode
  | .keep => (Command.keep <$> keepRecord : Record TreeFlaw Command).decode
  | .fileInto => (Command.fileInto <$> fileIntoRecord : Record TreeFlaw Command).decode
  | .redirect => (Command.redirect <$> redirectRecord : Record TreeFlaw Command).decode
  | .discard => (Command.discard <$> locationField : Record TreeFlaw Command).decode
  | .reject => (Command.reject <$> rejectRecord : Record TreeFlaw Command).decode
  | .setVariable => (Command.setVariable <$> setRecord : Record TreeFlaw Command).decode
  | .vacation => (Command.vacation <$> vacationRecord : Record TreeFlaw Command).decode
  | .flag => (Command.flag <$> flagRecord : Record TreeFlaw Command).decode
  | .notify => (Command.notify <$> notifyRecord : Record TreeFlaw Command).decode
  | .generic =>
    (genericCommand <$> field "name" (decodeChecked decodeString checkCommandName)
      <*> argumentsField decodeInnerArgument <*> optional "block" block <*> locationField
      : Record TreeFlaw Command).decode

def linkOf (block : TreeDecoder Block) (link : TreeDecoder Chain) :
    LinkKind → TreeDecoder Chain
  | .elsif =>
    (Chain.elsif <$> field "test" decodeInnerTest <*> field "consequent" block <*> chainField link
      <*> locationField : Record TreeFlaw Chain).decode
  | .otherwise =>
    (Chain.otherwise <$> field "consequent" block <*> locationField
      : Record TreeFlaw Chain).decode

def blockRecord (command : TreeDecoder Command) : Record TreeFlaw Block :=
  Block.mk <$> field "commands" (decodeList command) <*> locationField

mutual

def commandDecoder (fuel : Nat) (j : Json) : Except Error Command :=
  match fuel with
  | 0 => .error (mismatch j)
  | fuel + 1 =>
    decodeTagged (decodeVariantOrNumber commandKinds)
      (commandOf (blockDecoder fuel) (linkDecoder fuel)) j

def blockDecoder (fuel : Nat) (j : Json) : Except Error Block :=
  match fuel with
  | 0 => .error (mismatch j)
  | fuel + 1 => (blockRecord (commandDecoder fuel)).decode j

def linkDecoder (fuel : Nat) (j : Json) : Except Error Chain :=
  match fuel with
  | 0 => .error (mismatch j)
  | fuel + 1 =>
    decodeTagged (decodeVariantOrNumber linkKinds)
      (linkOf (blockDecoder fuel) (linkDecoder fuel)) j

end

/-- A command of a script, or one that stands by itself. -/
def decodeCommand : TreeDecoder Command := fun j =>
  decodeTagged (decodeVariant commandKinds)
    (commandOf (blockDecoder (fuelFor j)) (linkDecoder (fuelFor j))) j

def decodeBlock : TreeDecoder Block := (blockRecord decodeCommand).decode

def decodeScript : TreeDecoder Script :=
  (Script.mk <$> field "commands" (decodeList decodeCommand) <*> locationField
    : Record TreeFlaw Script).decode

def positionInterest : Interest :=
  .members [("offset", .whole), ("line", .whole), ("column", .whole)]

/-- What a script's text is read for. -/
def scriptInterest : Interest :=
  .members
    [("commands", .whole),
      ("location", .members [("start", positionInterest), ("end", positionInterest)])]

def readScript (text : String) : Except Error Script :=
  decodeText scriptInterest decodeScript text

def expectedKinds : List (String × ExpectedKind) :=
  [("literal", .literal), ("class", .tokenClass), ("end", .endOfInput)]

def decodeExpected : TreeDecoder Expected :=
  (Expected.mk <$> field "kind" (decodeName decodeNull expectedKinds)
    <*> field "description" decodeString : Record TreeFlaw Expected).decode

def diagnosticKinds : List (String × DiagnosticKind) :=
  [("lexical", .lexical), ("syntax", .grammatical)]

def decodeDiagnostic : TreeDecoder Diagnostic :=
  (Diagnostic.mk <$> field "kind" (decodeName decodeNull diagnosticKinds)
    <*> field "message" decodeString <*> field "location" decodeLocation
    <*> optional "found" decodeString
    <*> default "expected" [] (decodeList decodeExpected) : Record TreeFlaw Diagnostic).decode

end MailSieve.Interchange
