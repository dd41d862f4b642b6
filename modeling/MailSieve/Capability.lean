import MailSieve.Script.Tree

/-! Capabilities: which extensions a script uses, and which of them it declares.
Every command and test contributes by its own kind, tags and name, wherever it stands. A capability
that is used only under a test for it counts like any other. -/

namespace MailSieve.Capability

def flagged (present : Bool) (name : String) : List String := if present then [name] else []

def ofPart : Option AddressPart → List String
  | some .user => ["subaddress"]
  | some .detail => ["subaddress"]
  | _ => []

def ofOptions (o : MatchOptions) : List String :=
  flagged (o.matchType = some .regex) "regex" ++ flagged o.relational.isSome "relational"
    ++ flagged (o.comparator.any (·.value == "i;ascii-numeric")) "comparator-i;ascii-numeric"

/-- What a generic command's name stands for. -/
def ofName (name : String) : List String :=
  if name == "ereject" then ["reject"]
  else if ["addheader", "deleteheader"].contains name then ["editheader"]
  else if ["foreverypart", "break", "replace", "enclose", "extracttext"].contains name then ["mime"]
  else if ["include", "return", "global"].contains name then ["include"]
  else []

mutual

def ofTest : Test → List String
  | .always _ => []
  | .never _ => []
  | .negation t _ => ofTest t
  | .allOf ts _ => ofTests ts
  | .anyOf ts _ => ofTests ts
  | .address t => ofPart t.addressPart ++ ofOptions t.options
  | .header t => ofOptions t.options
  | .envelope t => "envelope" :: ofPart t.addressPart ++ ofOptions t.options
  | .headerExists _ _ => []
  | .size _ => []
  | .body t => "body" :: ofOptions t.options
  | .date t => "date" :: ofOptions t.options
  | .currentDate t => "date" :: ofOptions t.options
  | .hasFlag t => "imap4flags" :: ofOptions t.options
  | .string t => "variables" :: ofOptions t.options
  | .ihave _ _ => ["ihave"]
  | .duplicate _ => ["duplicate"]
  | .generic _ arguments _ => ofArguments arguments

def ofTests : List Test → List String
  | [] => []
  | t :: ts => ofTest t ++ ofTests ts

def ofArgument : Argument → List String
  | .tests ts _ => ofTests ts
  | .tag _ _ => []
  | .number _ => []
  | .string _ => []
  | .strings _ => []

def ofArguments : List Argument → List String
  | [] => []
  | a :: as => ofArgument a ++ ofArguments as

end

mutual

def ofCommand : Command → List String
  | .require _ => []
  | .ifTest test body chain _ => ofTest test ++ ofBlock body ++ ofChain chain
  | .stop _ => []
  | .keep c => flagged c.flags.isSome "imap4flags"
  | .fileInto c =>
    "fileinto" :: flagged c.copy "copy" ++ flagged c.create "mailbox"
      ++ flagged c.flags.isSome "imap4flags"
  | .redirect c => flagged c.copy "copy"
  | .discard _ => []
  | .reject _ => ["reject"]
  | .setVariable _ => ["variables"]
  | .vacation c => "vacation" :: flagged c.seconds.isSome "vacation-seconds"
  | .flag _ => ["imap4flags"]
  | .notify _ => ["enotify"]
  | .generic name arguments _ => ofName name ++ ofArguments arguments
  | .genericBlock name arguments body _ => ofName name ++ ofArguments arguments ++ ofBlock body

def ofCommands : List Command → List String
  | [] => []
  | c :: cs => ofCommand c ++ ofCommands cs

def ofBlock : Block → List String
  | .mk commands _ => ofCommands commands

def ofChain : Chain → List String
  | .done => []
  | .elsif test body chain _ => ofTest test ++ ofBlock body ++ ofChain chain
  | .otherwise body _ => ofBlock body

end

/-- Puts a name into an ascending list that is to hold it once. -/
def insert (name : String) : List String → List String
  | [] => [name]
  | n :: ns =>
    if name < n then name :: n :: ns
    else if n = name then n :: ns
    else n :: insert name ns

/-- The names of a list in ascending order, each once. -/
def sorted (names : List String) : List String := names.foldr insert []

def declaredBy : Command → List String
  | .require c => c.capabilities
  | _ => []

end MailSieve.Capability

namespace MailSieve.Script
open Capability

def required (s : Script) : List String := sorted (ofCommands s.commands)

/-- Only commands that stand in no block declare capabilities. -/
def declared (s : Script) : List String := sorted (s.commands.flatMap declaredBy)

def missing (s : Script) : List String :=
  s.required.filter fun name => !s.declared.contains name

end MailSieve.Script
