import MailSieve.Grammar.Script
import MailSieve.Proofs.Located.Tag
import MailSieve.Proofs.Script.Norm

/-! Scripts with and without locations.
A source is a script with locations if and only if it is one without them, and then the one is the
other erased; a source that is none has the same fault. The induction is on the levels that are
left, since every parser of a level is put together from those of the next. -/

namespace MailSieve

namespace Erases

section Tests

variable {start : Position} {inner : Parse Test}

theorem addressTest : Erases Test.erase (Parse.addressTest start) (Parse.addressTest start) := by
  refine (tags _).bind fun uses => stringList.bind fun _ => stringList.bind fun _ =>
    span.bind fun _ => .pure ?_
  rw [TagUses.addressPart?_erase, TagUses.matchOptions_erase]
  rfl

theorem envelopeTest : Erases Test.erase (Parse.envelopeTest start) (Parse.envelopeTest start) := by
  refine (tags _).bind fun uses => stringList.bind fun _ => stringList.bind fun _ =>
    span.bind fun _ => .pure ?_
  rw [TagUses.addressPart?_erase, TagUses.matchOptions_erase]
  rfl

theorem headerTest : Erases Test.erase (Parse.headerTest start) (Parse.headerTest start) := by
  refine (tags _).bind fun uses => stringList.bind fun _ => stringList.bind fun _ =>
    span.bind fun _ => .pure ?_
  rw [TagUses.matchOptions_erase]
  rfl

theorem sizeTest : Erases Test.erase (Parse.sizeTest start) (Parse.sizeTest start) := by
  refine (tags _).bind fun uses => ?_
  rw [TagUses.isEmpty_erase]
  refine .ite (note.bind fun _ => note.bind fun _ => fail) ?_
  refine number.bind fun _ => span.bind fun _ => .pure ?_
  rw [TagUses.has_erase]
  rfl

theorem bodyTest : Erases Test.erase (Parse.bodyTest start) (Parse.bodyTest start) := by
  refine (tags _).bind fun uses => stringList.bind fun _ => span.bind fun _ => .pure ?_
  rw [TagUses.transform?_erase, TagUses.matchOptions_erase]
  rfl

theorem dateTest : Erases Test.erase (Parse.dateTest start) (Parse.dateTest start) := by
  refine (tags _).bind fun uses => string.bind fun _ => string.bind fun _ =>
    stringList.bind fun _ => span.bind fun _ => .pure ?_
  rw [TagUses.string?_erase, TagUses.has_erase, TagUses.matchOptions_erase]
  rfl

theorem currentDateTest :
    Erases Test.erase (Parse.currentDateTest start) (Parse.currentDateTest start) := by
  refine (tags _).bind fun uses => string.bind fun _ => stringList.bind fun _ =>
    span.bind fun _ => .pure ?_
  rw [TagUses.string?_erase, TagUses.matchOptions_erase]
  rfl

theorem hasFlagTest : Erases Test.erase (Parse.hasFlagTest start) (Parse.hasFlagTest start) := by
  refine (tags _).bind fun uses => stringList.bind fun _ => isAtStringList.bind fun _ => .ite ?_ ?_
  · refine stringList.bind fun _ => span.bind fun _ => .pure ?_
    rw [TagUses.matchOptions_erase]
    rfl
  · refine span.bind fun _ => .pure ?_
    rw [TagUses.matchOptions_erase]
    rfl

theorem stringTest : Erases Test.erase (Parse.stringTest start) (Parse.stringTest start) := by
  refine (tags _).bind fun uses => stringList.bind fun _ => stringList.bind fun _ =>
    span.bind fun _ => .pure ?_
  rw [TagUses.matchOptions_erase]
  rfl

theorem duplicateTest :
    Erases Test.erase (Parse.duplicateTest start) (Parse.duplicateTest start) := by
  refine (tags _).bind fun uses => span.bind fun _ => .pure ?_
  rw [TagUses.string?_erase, TagUses.string?_erase, TagUses.string?_erase, TagUses.number?_erase,
    TagUses.has_erase]
  rfl

theorem testList (ht : Erases Test.erase inner inner) :
    Erases (List.map Test.erase) (Parse.testList inner) (Parse.testList inner) :=
  expect.bind fun _ => (commaSeparated ht).bind fun _ => expect.bind fun _ => .pure rfl

theorem argument (ht : Erases Test.erase inner inner) :
    Erases (Option.map Argument.erase) (Parse.argument inner) (Parse.argument inner) := by
  refine note.bind fun _ => note.bind fun _ => note.bind fun _ => note.bind fun _ =>
    note.bind fun _ => note.bind fun _ => peek.bind fun l => ?_
  obtain ⟨token, location, text⟩ := l
  cases token with
  | tag name => exact advance.bind fun _ => located.bind fun _ => .pure rfl
  | number value quantifier => exact number.bind fun _ => .pure rfl
  | string value multiline => exact string.bind fun _ => .pure rfl
  | word name => exact ht.bind fun _ => span.bind fun _ => .pure rfl
  | mark p =>
    cases p with
    | openBracket => exact stringList.bind fun _ => .pure rfl
    | openParen =>
      exact (testList ht).bind fun _ => span.bind fun _ =>
        .pure (congrArg some Argument.erase_tests)
    | _ => exact .pure rfl
  | endOfInput => exact .pure rfl

theorem isTests_erase (a : Argument) : Parse.isTests a.erase = Parse.isTests a := by
  cases a <;> rfl

theorem arguments (ht : Erases Test.erase inner inner) :
    Erases (List.map Argument.erase) (Parse.arguments inner) (Parse.arguments inner) :=
  manyUntil (argument ht) isTests_erase

theorem keywordTest (ht : Erases Test.erase inner inner) (k : TestKeyword) :
    Erases Test.erase (Parse.keywordTest inner start k) (Parse.keywordTest inner start k) := by
  cases k with
  | always | never => exact span.bind fun _ => .pure rfl
  | negation => exact ht.bind fun _ => span.bind fun _ => .pure rfl
  | allOf => exact (testList ht).bind fun _ => span.bind fun _ => .pure Test.erase_allOf
  | anyOf => exact (testList ht).bind fun _ => span.bind fun _ => .pure Test.erase_anyOf
  | address => exact addressTest
  | envelope => exact envelopeTest
  | header => exact headerTest
  | headerExists | ihave => exact stringList.bind fun _ => span.bind fun _ => .pure rfl
  | size => exact sizeTest
  | body => exact bodyTest
  | date => exact dateTest
  | currentDate => exact currentDateTest
  | hasFlag => exact hasFlagTest
  | string => exact stringTest
  | duplicate => exact duplicateTest

theorem genericTest (ht : Erases Test.erase inner inner) {name : String} :
    Erases Test.erase (Parse.genericTest inner name start)
      (Parse.genericTest inner name start) :=
  (arguments ht).bind fun _ => span.bind fun _ => .pure Test.erase_generic

theorem testWith (ht : Erases Test.erase inner inner) :
    Erases Test.erase (Parse.testWith inner) (Parse.testWith inner) := by
  refine isAt.bind fun _ => .ite ?_ (note.bind fun _ => peek.bind fun l => ?_)
  · exact advance.bind fun _ => ht.bind fun _ => expect.bind fun _ => .pure rfl
  · obtain ⟨token, location, text⟩ := l
    cases token with
    | word name =>
      refine advance.bind fun _ => ?_
      cases TestKeyword.ofWord? name with
      | some k => exact keywordTest ht k
      | none => exact genericTest ht
    | _ => exact fail

theorem test (room : Nat) : Erases Test.erase (Parse.test room) (Parse.test room) := by
  induction room with
  | zero => exact fun _ _ => rfl
  | succ room ih => exact testWith ih

end Tests

section Commands

variable {start : Position} {inner : Parse Test} {block : Parse Block} {chain : Parse Chain}

theorem requireCommand :
    Erases Command.erase (Parse.requireCommand start) (Parse.requireCommand start) := by
  refine stringList.bind fun l => expect.bind fun _ => span.bind fun _ => .pure ?_
  rw [StringList.erase, List.map_map]
  rfl

theorem keepCommand :
    Erases Command.erase (Parse.keepCommand start) (Parse.keepCommand start) := by
  refine (tags _).bind fun uses => expect.bind fun _ => span.bind fun _ => .pure ?_
  rw [TagUses.strings?_erase]
  rfl

theorem fileIntoCommand :
    Erases Command.erase (Parse.fileIntoCommand start) (Parse.fileIntoCommand start) := by
  refine (tags _).bind fun uses => string.bind fun _ => expect.bind fun _ =>
    span.bind fun _ => .pure ?_
  rw [TagUses.has_erase, TagUses.has_erase, TagUses.strings?_erase]
  rfl

theorem redirectCommand :
    Erases Command.erase (Parse.redirectCommand start) (Parse.redirectCommand start) := by
  refine (tags _).bind fun uses => string.bind fun _ => expect.bind fun _ =>
    span.bind fun _ => .pure ?_
  rw [TagUses.has_erase]
  rfl

theorem setCommand : Erases Command.erase (Parse.setCommand start) (Parse.setCommand start) := by
  refine (tags _).bind fun uses => string.bind fun _ => string.bind fun _ => expect.bind fun _ =>
    span.bind fun _ => .pure ?_
  rw [TagUses.modifiers_erase]
  rfl

theorem vacationCommand :
    Erases Command.erase (Parse.vacationCommand start) (Parse.vacationCommand start) := by
  refine (tags _).bind fun uses => string.bind fun _ => expect.bind fun _ =>
    span.bind fun _ => .pure ?_
  simp only [TagUses.number?_erase, TagUses.string?_erase, TagUses.strings?_erase,
    TagUses.has_erase]
  rfl

theorem flagArguments :
    Erases (Prod.map (Option.map StringLit.erase) StringList.erase) Parse.flagArguments
      Parse.flagArguments := by
  refine note.bind fun _ => isAtString.bind fun _ => .ite ?_ ?_
  · refine string.bind fun _ => isAtStringList.bind fun _ => .ite ?_ (.pure rfl)
    exact stringList.bind fun _ => .pure rfl
  · exact stringList.bind fun _ => .pure rfl

theorem flagCommand {action : FlagAction} :
    Erases Command.erase (Parse.flagCommand action start) (Parse.flagCommand action start) :=
  flagArguments.bind fun _ => expect.bind fun _ => span.bind fun _ => .pure rfl

theorem notifyCommand :
    Erases Command.erase (Parse.notifyCommand start) (Parse.notifyCommand start) := by
  refine (tags _).bind fun uses => string.bind fun _ => expect.bind fun _ =>
    span.bind fun _ => .pure ?_
  simp only [TagUses.importance?_erase, TagUses.string?_erase, TagUses.strings?_erase]
  rfl

theorem genericCommand (ht : Erases Test.erase inner inner) (hb : Erases Block.erase block block)
    {name : String} :
    Erases Command.erase (Parse.genericCommand inner block name start)
      (Parse.genericCommand inner block name start) := by
  refine (arguments ht).bind fun _ => isAt.bind fun _ => .ite ?_ ?_
  · exact hb.bind fun _ => span.bind fun _ => .pure Command.erase_genericBlock
  · exact expect.bind fun _ => span.bind fun _ => .pure Command.erase_generic

theorem keywordCommand (ht : Erases Test.erase inner inner) (hb : Erases Block.erase block block)
    (hc : Erases Chain.erase chain chain) (l : Lexeme) (k : CommandKeyword) :
    Erases Command.erase (Parse.keywordCommand inner block chain l k)
      (Parse.keywordCommand inner block chain l k) := by
  cases k with
  | require => exact requireCommand
  | ifTest =>
    exact ht.bind fun _ => hb.bind fun _ => hc.bind fun _ => span.bind fun _ => .pure rfl
  | elsif | elseBlock => exact fault
  | stop | discard => exact expect.bind fun _ => span.bind fun _ => .pure rfl
  | keep => exact keepCommand
  | fileInto => exact fileIntoCommand
  | redirect => exact redirectCommand
  | reject => exact string.bind fun _ => expect.bind fun _ => span.bind fun _ => .pure rfl
  | setVariable => exact setCommand
  | vacation => exact vacationCommand
  | setFlag | addFlag | removeFlag => exact flagCommand
  | notify => exact notifyCommand

theorem commandWith (ht : Erases Test.erase inner inner) (hb : Erases Block.erase block block)
    (hc : Erases Chain.erase chain chain) :
    Erases Command.erase (Parse.commandWith inner block chain)
      (Parse.commandWith inner block chain) := by
  refine note.bind fun _ => peek.bind fun l => ?_
  obtain ⟨token, location, text⟩ := l
  cases token with
  | word name =>
    refine advance.bind fun _ => ?_
    cases CommandKeyword.ofWord? name with
    | some k => exact keywordCommand ht hb hc _ k
    | none => exact genericCommand ht hb
  | _ => exact fail

theorem blockWith {command : Parse Command} (hc : Erases Command.erase command command) :
    Erases Block.erase (Parse.blockWith command start) (Parse.blockWith command start) := by
  have hitem : Erases (Option.map Command.erase) (Parse.commandOrClose command)
      (Parse.commandOrClose command) :=
    eat.bind fun _ => .ite (.pure rfl) (hc.bind fun _ => .pure rfl)
  exact (many hitem).bind fun _ => span.bind fun _ => .pure Block.erase_mk

theorem chainWith {elsif elseBlock : Lexeme → Parse Chain}
    (hi : ∀ l, Erases Chain.erase (elsif l) (elsif l))
    (he : ∀ l, Erases Chain.erase (elseBlock l) (elseBlock l)) :
    Erases Chain.erase (Parse.chainWith elsif elseBlock) (Parse.chainWith elsif elseBlock) :=
  peek.bind fun l => eatWord.bind fun _ => .ite (hi l)
    (eatWord.bind fun _ => .ite (he l) (.pure rfl))

theorem tooDeep {α β : Type} {f : α → β} (l : Lexeme) :
    Erases f (Parse.tooDeep l) (Parse.tooDeep l) := fun _ _ => rfl

theorem block_chain (room : Nat) :
    Erases Block.erase (Parse.block room) (Parse.block room)
      ∧ Erases Chain.erase (Parse.chain room) (Parse.chain room) := by
  induction room with
  | zero =>
    exact ⟨expect.bind fun l => tooDeep l, chainWith tooDeep tooDeep⟩
  | succ room ih =>
    obtain ⟨hb, hc⟩ := ih
    refine ⟨expect.bind fun l => blockWith (commandWith (test room) hb hc), chainWith ?_ ?_⟩
    · exact fun l => (test room).bind fun _ => hb.bind fun _ => hc.bind fun _ =>
        span.bind fun _ => .pure rfl
    · exact fun l => hb.bind fun _ => span.bind fun _ => .pure rfl

theorem command (room : Nat) :
    Erases Command.erase (Parse.command room) (Parse.command room) :=
  commandWith (test room) (block_chain room).1 (block_chain room).2

theorem commandOrEnd (room : Nat) :
    Erases (Option.map Command.erase) (Parse.commandOrEnd (Parse.command room))
      (Parse.commandOrEnd (Parse.command room)) :=
  note.bind fun _ => peek.bind fun _ => .ite (.pure rfl)
    ((command room).bind fun _ => .pure rfl)

end Commands

end Erases

namespace Script

theorem erases_script : Erases erase Parse.script Parse.script := by
  intro limit c
  let body : Parse Script := do
    let commands ← Parse.many (Parse.commandOrEnd (Parse.command limit))
    let l ← Parse.peek
    pure ⟨commands, ← Parse.located ⟨.origin, l.location.stop⟩⟩
  have hbody : Erases erase body body := by
    refine (Erases.many (.commandOrEnd limit)).bind fun cs => Erases.peek.bind fun l =>
      Erases.located.bind fun _ => .pure ?_
    rw [erase, eraseCommands_eq_map]
  exact hbody limit c

/-- Locations are recorded beside everything else. -/
theorem parse_erase (limit : Nat) (source : String) :
    parse ⟨false, limit⟩ source = (parse ⟨true, limit⟩ source).map erase := by
  unfold parse
  cases Cursor.ofReadings (readings source) with
  | error f => rfl
  | ok c =>
    change (Parse.script ⟨false, limit⟩ c).bind _ = ((Parse.script ⟨true, limit⟩ c).bind _).map _
    rw [erases_script limit c]
    cases Parse.script ⟨true, limit⟩ c <;> rfl

theorem exists_parse_iff (o : ParseOptions) (source : String) :
    (∃ s, parse o source = .ok s) ↔ ∃ s, parse ⟨false, o.maxDepth⟩ source = .ok s := by
  obtain ⟨locations, limit⟩ := o
  cases locations with
  | false => exact Iff.rfl
  | true =>
    rw [parse_erase]
    cases parse ⟨true, limit⟩ source <;> simp [Except.map]

end Script

end MailSieve
