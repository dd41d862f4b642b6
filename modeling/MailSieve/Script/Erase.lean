import MailSieve.Script.Tree

/-! Trees without locations: the same tree with every recorded location removed. -/

namespace MailSieve

namespace StringLit

def erase (s : StringLit) : StringLit := { s with location := none }

end StringLit

namespace StringList

def erase (l : StringList) : StringList := ⟨l.values.map StringLit.erase, none⟩

end StringList

namespace NumberLit

def erase (n : NumberLit) : NumberLit := { n with location := none }

end NumberLit

namespace MatchOptions

def erase (o : MatchOptions) : MatchOptions :=
  { o with comparator := o.comparator.map StringLit.erase }

end MatchOptions

namespace BodyTransform

def erase : BodyTransform → BodyTransform
  | raw => raw
  | text => text
  | content types => content types.erase

end BodyTransform

namespace AddressTest

def erase (t : AddressTest) : AddressTest :=
  ⟨t.addressPart, t.options.erase, t.headers.erase, t.keys.erase, none⟩

end AddressTest

namespace EnvelopeTest

def erase (t : EnvelopeTest) : EnvelopeTest :=
  ⟨t.addressPart, t.options.erase, t.envelopeParts.erase, t.keys.erase, none⟩

end EnvelopeTest

namespace HeaderTest

def erase (t : HeaderTest) : HeaderTest := ⟨t.options.erase, t.headers.erase, t.keys.erase, none⟩

end HeaderTest

namespace SizeTest

def erase (t : SizeTest) : SizeTest := ⟨t.above, t.size.erase, none⟩

end SizeTest

namespace BodyTest

def erase (t : BodyTest) : BodyTest :=
  ⟨t.transform.map BodyTransform.erase, t.options.erase, t.keys.erase, none⟩

end BodyTest

namespace DateTest

def erase (t : DateTest) : DateTest :=
  ⟨t.zone.map StringLit.erase, t.originalZone, t.options.erase, t.header.erase, t.datePart.erase,
    t.keys.erase, none⟩

end DateTest

namespace CurrentDateTest

def erase (t : CurrentDateTest) : CurrentDateTest :=
  ⟨t.zone.map StringLit.erase, t.options.erase, t.datePart.erase, t.keys.erase, none⟩

end CurrentDateTest

namespace HasFlagTest

def erase (t : HasFlagTest) : HasFlagTest :=
  ⟨t.options.erase, t.variableNames.map StringList.erase, t.flags.erase, none⟩

end HasFlagTest

namespace StringTest

def erase (t : StringTest) : StringTest := ⟨t.options.erase, t.source.erase, t.keys.erase, none⟩

end StringTest

namespace DuplicateTest

def erase (t : DuplicateTest) : DuplicateTest :=
  ⟨t.handle.map StringLit.erase, t.header.map StringLit.erase, t.uniqueId.map StringLit.erase,
    t.seconds.map NumberLit.erase, t.last, none⟩

end DuplicateTest

mutual

def Test.erase : Test → Test
  | .always _ => .always none
  | .never _ => .never none
  | .negation t _ => .negation t.erase none
  | .allOf ts _ => .allOf (eraseTests ts) none
  | .anyOf ts _ => .anyOf (eraseTests ts) none
  | .address t => .address t.erase
  | .header t => .header t.erase
  | .envelope t => .envelope t.erase
  | .headerExists headers _ => .headerExists headers.erase none
  | .size t => .size t.erase
  | .body t => .body t.erase
  | .date t => .date t.erase
  | .currentDate t => .currentDate t.erase
  | .hasFlag t => .hasFlag t.erase
  | .string t => .string t.erase
  | .ihave capabilities _ => .ihave capabilities.erase none
  | .duplicate t => .duplicate t.erase
  | .generic name arguments _ => .generic name (eraseArguments arguments) none

def eraseTests : List Test → List Test
  | [] => []
  | t :: ts => t.erase :: eraseTests ts

def Argument.erase : Argument → Argument
  | .tag name _ => .tag name none
  | .number n => .number n.erase
  | .string s => .string s.erase
  | .strings l => .strings l.erase
  | .tests ts _ => .tests (eraseTests ts) none

def eraseArguments : List Argument → List Argument
  | [] => []
  | a :: as => a.erase :: eraseArguments as

end

theorem eraseTests_eq_map (ts : List Test) : eraseTests ts = ts.map Test.erase := by
  induction ts with
  | nil => rfl
  | cons t ts ih => rw [eraseTests, ih, List.map_cons]

theorem eraseArguments_eq_map (as : List Argument) :
    eraseArguments as = as.map Argument.erase := by
  induction as with
  | nil => rfl
  | cons a as ih => rw [eraseArguments, ih, List.map_cons]

section Lists

variable {ts : List Test} {as : List Argument} {name : String} {l : Option Location}

theorem Test.erase_allOf : (allOf ts l).erase = allOf (ts.map erase) none := by
  rw [erase, eraseTests_eq_map]

theorem Test.erase_anyOf : (anyOf ts l).erase = anyOf (ts.map erase) none := by
  rw [erase, eraseTests_eq_map]

theorem Test.erase_generic :
    (generic name as l).erase = generic name (as.map Argument.erase) none := by
  rw [erase, eraseArguments_eq_map]

theorem Argument.erase_tests : (tests ts l).erase = tests (ts.map Test.erase) none := by
  rw [erase, eraseTests_eq_map]

end Lists

namespace KeepCommand

def erase (c : KeepCommand) : KeepCommand := ⟨c.flags.map StringList.erase, none⟩

end KeepCommand

namespace FileIntoCommand

def erase (c : FileIntoCommand) : FileIntoCommand :=
  ⟨c.mailbox.erase, c.copy, c.create, c.flags.map StringList.erase, none⟩

end FileIntoCommand

namespace RedirectCommand

def erase (c : RedirectCommand) : RedirectCommand := ⟨c.address.erase, c.copy, none⟩

end RedirectCommand

namespace RejectCommand

def erase (c : RejectCommand) : RejectCommand := ⟨c.reason.erase, none⟩

end RejectCommand

namespace SetCommand

def erase (c : SetCommand) : SetCommand := ⟨c.modifiers, c.name.erase, c.value.erase, none⟩

end SetCommand

namespace VacationCommand

def erase (c : VacationCommand) : VacationCommand :=
  ⟨c.reason.erase, c.days.map NumberLit.erase, c.seconds.map NumberLit.erase,
    c.subject.map StringLit.erase, c.sender.map StringLit.erase,
    c.addresses.map StringList.erase, c.mime, c.handle.map StringLit.erase, none⟩

end VacationCommand

namespace FlagCommand

def erase (c : FlagCommand) : FlagCommand :=
  ⟨c.action, c.variableName.map StringLit.erase, c.flags.erase, none⟩

end FlagCommand

namespace NotifyCommand

def erase (c : NotifyCommand) : NotifyCommand :=
  ⟨c.method.erase, c.sender.map StringLit.erase, c.importance, c.options.map StringList.erase,
    c.message.map StringLit.erase, none⟩

end NotifyCommand

namespace RequireCommand

def erase (c : RequireCommand) : RequireCommand := { c with location := none }

end RequireCommand

mutual

def Command.erase : Command → Command
  | .require c => .require c.erase
  | .ifTest test body chain _ => .ifTest test.erase body.erase chain.erase none
  | .stop _ => .stop none
  | .keep c => .keep c.erase
  | .fileInto c => .fileInto c.erase
  | .redirect c => .redirect c.erase
  | .discard _ => .discard none
  | .reject c => .reject c.erase
  | .setVariable c => .setVariable c.erase
  | .vacation c => .vacation c.erase
  | .flag c => .flag c.erase
  | .notify c => .notify c.erase
  | .generic name arguments _ => .generic name (eraseArguments arguments) none
  | .genericBlock name arguments body _ =>
    .genericBlock name (eraseArguments arguments) body.erase none

def eraseCommands : List Command → List Command
  | [] => []
  | c :: cs => c.erase :: eraseCommands cs

def Block.erase : Block → Block
  | .mk commands _ => .mk (eraseCommands commands) none

def Chain.erase : Chain → Chain
  | .done => .done
  | .elsif test body chain _ => .elsif test.erase body.erase chain.erase none
  | .otherwise body _ => .otherwise body.erase none

end

theorem eraseCommands_eq_map (cs : List Command) : eraseCommands cs = cs.map Command.erase := by
  induction cs with
  | nil => rfl
  | cons c cs ih => rw [eraseCommands, ih, List.map_cons]

section Lists

variable {cs : List Command} {as : List Argument} {b : Block} {name : String}
variable {l : Option Location}

theorem Command.erase_generic :
    (generic name as l).erase = generic name (as.map Argument.erase) none := by
  rw [erase, eraseArguments_eq_map]

theorem Command.erase_genericBlock :
    (genericBlock name as b l).erase
      = genericBlock name (as.map Argument.erase) b.erase none := by
  rw [erase, eraseArguments_eq_map]

theorem Block.erase_mk : (mk cs l).erase = mk (cs.map Command.erase) none := by
  rw [erase, eraseCommands_eq_map]

end Lists

namespace Script

def erase (s : Script) : Script := ⟨eraseCommands s.commands, none⟩

theorem commands_erase (s : Script) : s.erase.commands = s.commands.map Command.erase :=
  eraseCommands_eq_map s.commands

end Script

end MailSieve
