import MailSieve.Canonical.Mark
import MailSieve.Script.Tree
import MailSieve.Script.Keyword

/-! Canonical form of a script: single spaces between tokens, tags in a fixed order, one command on
a line, nested blocks indented, and a list of one string written as that string. -/

namespace MailSieve.Canonical
open Mark

def commaSeparated : List (List Mark) → List Mark
  | [] => []
  | [m] => m
  | m :: ms => m ++ punctuation .comma :: space :: commaSeparated ms

def stringMark (s : StringLit) : Mark := token (.string s.value s.multiline)

def listMarks : List Mark → List Mark
  | [m] => [m]
  | ms =>
    punctuation .openBracket :: commaSeparated (ms.map fun m => [m])
      ++ [punctuation .closeBracket]

def stringListMarks (l : StringList) : List Mark := listMarks (l.values.map stringMark)

/-- A quantifier that does not divide the value is dropped. -/
def numberMark (n : NumberLit) : Mark :=
  token (.number n.value (n.quantifier.filter fun q => n.value.toNat % q.multiplier == 0))

def spaced (marks : List Mark) : List Mark := space :: marks

def tagIf (name : String) (present : Bool) : List Mark :=
  if present then [space, tag name] else []

def tagWith {α : Type} (name : String) (marks : α → List Mark) : Option α → List Mark
  | none => []
  | some a => space :: tag name :: space :: marks a

def taggedString (name : String) (s : Option StringLit) : List Mark :=
  tagWith name (fun s => [stringMark s]) s

def taggedStrings (name : String) (l : Option StringList) : List Mark :=
  tagWith name stringListMarks l

def taggedNumber (name : String) (n : Option NumberLit) : List Mark :=
  tagWith name (fun n => [numberMark n]) n

def tagNamed {α : Type} (word : α → String) : Option α → List Mark
  | none => []
  | some a => [space, tag (word a)]

def relationalMarks : Option Relational → List Mark
  | none => []
  | some r => [space, tag r.kind.word, space, quoted r.operator.word]

def optionMarks (o : MatchOptions) : List Mark :=
  tagNamed MatchType.word o.matchType ++ relationalMarks o.relational
    ++ taggedString "comparator" o.comparator

def partMarks (p : Option AddressPart) : List Mark := tagNamed AddressPart.word p

def transformMarks : Option BodyTransform → List Mark
  | none => []
  | some .raw => [space, tag "raw"]
  | some .text => [space, tag "text"]
  | some (.content types) => taggedStrings "content" (some types)

def keyword (k : TestKeyword) : Mark := word k.word

def addressMarks (t : AddressTest) : List Mark :=
  keyword .address :: partMarks t.addressPart ++ optionMarks t.options
    ++ spaced (stringListMarks t.headers) ++ spaced (stringListMarks t.keys)

def envelopeMarks (t : EnvelopeTest) : List Mark :=
  keyword .envelope :: partMarks t.addressPart ++ optionMarks t.options
    ++ spaced (stringListMarks t.envelopeParts) ++ spaced (stringListMarks t.keys)

def headerMarks (t : HeaderTest) : List Mark :=
  keyword .header :: optionMarks t.options ++ spaced (stringListMarks t.headers)
    ++ spaced (stringListMarks t.keys)

def sizeMarks (t : SizeTest) : List Mark :=
  [keyword .size, space, tag (if t.above then "over" else "under"), space, numberMark t.size]

def bodyMarks (t : BodyTest) : List Mark :=
  keyword .body :: transformMarks t.transform ++ optionMarks t.options
    ++ spaced (stringListMarks t.keys)

def dateMarks (t : DateTest) : List Mark :=
  keyword .date :: taggedString "zone" t.zone ++ tagIf "originalzone" t.originalZone
    ++ optionMarks t.options ++ spaced [stringMark t.header] ++ spaced [stringMark t.datePart]
    ++ spaced (stringListMarks t.keys)

def currentDateMarks (t : CurrentDateTest) : List Mark :=
  keyword .currentDate :: taggedString "zone" t.zone ++ optionMarks t.options
    ++ spaced [stringMark t.datePart] ++ spaced (stringListMarks t.keys)

def hasFlagMarks (t : HasFlagTest) : List Mark :=
  keyword .hasFlag :: optionMarks t.options
    ++ (t.variableNames.elim [] fun l => spaced (stringListMarks l))
    ++ spaced (stringListMarks t.flags)

def stringTestMarks (t : StringTest) : List Mark :=
  keyword .string :: optionMarks t.options ++ spaced (stringListMarks t.source)
    ++ spaced (stringListMarks t.keys)

def duplicateMarks (t : DuplicateTest) : List Mark :=
  keyword .duplicate :: taggedString "handle" t.handle ++ taggedString "header" t.header
    ++ taggedString "uniqueid" t.uniqueId ++ taggedNumber "seconds" t.seconds
    ++ tagIf "last" t.last

def parenthesized (tests : List (List Mark)) : List Mark :=
  punctuation .openParen :: commaSeparated tests ++ [punctuation .closeParen]

mutual

def testMarks : Test → List Mark
  | .always _ => [keyword .always]
  | .never _ => [keyword .never]
  | .negation t _ => keyword .negation :: space :: testMarks t
  | .allOf ts _ => keyword .allOf :: space :: parenthesized (testsMarks ts)
  | .anyOf ts _ => keyword .anyOf :: space :: parenthesized (testsMarks ts)
  | .address t => addressMarks t
  | .header t => headerMarks t
  | .envelope t => envelopeMarks t
  | .headerExists headers _ => keyword .headerExists :: spaced (stringListMarks headers)
  | .size t => sizeMarks t
  | .body t => bodyMarks t
  | .date t => dateMarks t
  | .currentDate t => currentDateMarks t
  | .hasFlag t => hasFlagMarks t
  | .string t => stringTestMarks t
  | .ihave capabilities _ => keyword .ihave :: spaced (stringListMarks capabilities)
  | .duplicate t => duplicateMarks t
  | .generic name arguments _ => word name :: argumentsMarks arguments

def testsMarks : List Test → List (List Mark)
  | [] => []
  | t :: ts => testMarks t :: testsMarks ts

def argumentMarks : Argument → List Mark
  | .tag name _ => [tag name]
  | .number n => [numberMark n]
  | .string s => [stringMark s]
  | .strings l => stringListMarks l
  | .tests ts _ => parenthesized (testsMarks ts)

def argumentsMarks : List Argument → List Mark
  | [] => []
  | a :: as => spaced (argumentMarks a) ++ argumentsMarks as

end

def commandWord (k : CommandKeyword) : Mark := word k.word

def vacationMarks (c : VacationCommand) : List Mark :=
  commandWord .vacation :: taggedNumber "days" c.days ++ taggedNumber "seconds" c.seconds
    ++ taggedString "subject" c.subject ++ taggedString "from" c.sender
    ++ taggedStrings "addresses" c.addresses ++ tagIf "mime" c.mime
    ++ taggedString "handle" c.handle ++ spaced [stringMark c.reason]

def notifyMarks (c : NotifyCommand) : List Mark :=
  commandWord .notify :: taggedString "from" c.sender
    ++ tagWith "importance" (fun i => [quoted i.word]) c.importance
    ++ taggedStrings "options" c.options ++ taggedString "message" c.message
    ++ spaced [stringMark c.method]

def fileIntoMarks (c : FileIntoCommand) : List Mark :=
  commandWord .fileInto :: tagIf "copy" c.copy ++ tagIf "create" c.create
    ++ taggedStrings "flags" c.flags ++ spaced [stringMark c.mailbox]

def setMarks (c : SetCommand) : List Mark :=
  commandWord .setVariable :: c.modifiers.flatMap (fun m => [space, tag m.word])
    ++ spaced [stringMark c.name] ++ spaced [stringMark c.value]

def flagMarks (c : FlagCommand) : List Mark :=
  word c.action.word :: (c.variableName.elim [] fun s => spaced [stringMark s])
    ++ spaced (stringListMarks c.flags)

def terminated (marks : List Mark) : List Mark := marks ++ [punctuation .semicolon]

mutual

/-- A command that begins at nesting depth `depth`. -/
def commandMarks (depth : Nat) : Command → List Mark
  | .require c =>
    terminated (commandWord .require :: spaced (listMarks (c.capabilities.map quoted)))
  | .ifTest test body chain _ =>
    commandWord .ifTest :: spaced (testMarks test) ++ spaced (blockMarks depth body)
      ++ chainMarks depth chain
  | .stop _ => terminated [commandWord .stop]
  | .keep c => terminated (commandWord .keep :: taggedStrings "flags" c.flags)
  | .fileInto c => terminated (fileIntoMarks c)
  | .redirect c =>
    terminated (commandWord .redirect :: tagIf "copy" c.copy ++ spaced [stringMark c.address])
  | .discard _ => terminated [commandWord .discard]
  | .reject c => terminated (commandWord .reject :: spaced [stringMark c.reason])
  | .setVariable c => terminated (setMarks c)
  | .vacation c => terminated (vacationMarks c)
  | .flag c => terminated (flagMarks c)
  | .notify c => terminated (notifyMarks c)
  | .generic name arguments _ => terminated (word name :: argumentsMarks arguments)
  | .genericBlock name arguments body _ =>
    word name :: argumentsMarks arguments ++ spaced (blockMarks depth body)

/-- Commands that each begin a line. -/
def linesMarks (depth : Nat) : List Command → List Mark
  | [] => []
  | c :: cs => line depth :: commandMarks depth c ++ linesMarks depth cs

def blockMarks (depth : Nat) : Block → List Mark
  | .mk [] _ => [punctuation .openBrace, punctuation .closeBrace]
  | .mk (c :: cs) _ =>
    punctuation .openBrace :: line (depth + 1) :: commandMarks (depth + 1) c
      ++ linesMarks (depth + 1) cs ++ [line depth, punctuation .closeBrace]

def chainMarks (depth : Nat) : Chain → List Mark
  | .done => []
  | .elsif test body chain _ =>
    space :: commandWord .elsif :: spaced (testMarks test) ++ spaced (blockMarks depth body)
      ++ chainMarks depth chain
  | .otherwise body _ => space :: commandWord .elseBlock :: spaced (blockMarks depth body)

end

/-- Commands with line breaks between them only. -/
def scriptMarks : List Command → List Mark
  | [] => []
  | c :: cs => commandMarks 0 c ++ linesMarks 0 cs

end MailSieve.Canonical

namespace MailSieve

def Script.generate (s : Script) (l : Layout) : String :=
  l.render (Canonical.scriptMarks s.commands)

def Script.display (s : Script) : String := s.generate .standard

def Test.display (t : Test) : String := Layout.standard.render (Canonical.testMarks t)

end MailSieve
