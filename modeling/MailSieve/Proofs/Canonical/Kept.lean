import MailSieve.Proofs.Canonical.Token
import MailSieve.Proofs.Phrase.Induction

/-! What is kept of a tree that is written and read again: the tree without locations, without
quantifiers that do not divide their numbers, and with a string in place of each argument that is a
list of one string. -/

namespace MailSieve

open Phrase

def Test.kept (t : Test) : Test := t.erase.reduced.norm

def Argument.kept (a : Argument) : Argument := a.erase.reduced.norm

def Command.kept (c : Command) : Command := c.erase.reduced.norm

def Block.kept (b : Block) : Block := b.erase.reduced.norm

def Chain.kept (c : Chain) : Chain := c.erase.reduced.norm

theorem keptTests_eq_map (ts : List Test) :
    normTests (reduceTests (eraseTests ts)) = ts.map Test.kept := by
  rw [eraseTests_eq_map, reduceTests_eq_map, normTests_eq_map, List.map_map, List.map_map]
  rfl

theorem keptArguments_eq_map (as : List Argument) :
    normArguments (reduceArguments (eraseArguments as)) = as.map Argument.kept := by
  rw [eraseArguments_eq_map, reduceArguments_eq_map, normArguments_eq_map, List.map_map,
    List.map_map]
  rfl

theorem keptCommands_eq_map (cs : List Command) :
    normCommands (reduceCommands (eraseCommands cs)) = cs.map Command.kept := by
  rw [eraseCommands_eq_map, reduceCommands_eq_map, normCommands_eq_map, List.map_map,
    List.map_map]
  rfl

namespace Test

variable {t : Test} {ts : List Test} {l : Option Location}

theorem kept_allOf : (allOf ts l).kept = allOf (ts.map kept) none := by
  rw [← keptTests_eq_map]
  rfl

theorem kept_anyOf : (anyOf ts l).kept = anyOf (ts.map kept) none := by
  rw [← keptTests_eq_map]
  rfl

theorem kept_generic {name : String} {as : List Argument} :
    (generic name as l).kept = generic name (as.map Argument.kept) none := by
  rw [← keptArguments_eq_map]
  rfl

end Test

namespace Argument

theorem kept_tests {ts : List Test} {l : Option Location} :
    (tests ts l).kept = tests (ts.map Test.kept) none := by
  rw [← keptTests_eq_map]
  rfl

end Argument

section Clauses

variable {name : String}

theorem kept_flagSetting {b : Bool} :
    (flagSetting name b).map Setting.kept = flagSetting name b := by
  cases b <;> rfl

theorem kept_stringSetting {s : Option StringLit} :
    (stringSetting name s).map Setting.kept = stringSetting name (s.map StringLit.erase) := by
  cases s <;> rfl

theorem kept_stringsSetting {l : Option StringList} :
    (stringsSetting name l).map Setting.kept = stringsSetting name (l.map StringList.erase) := by
  cases l <;> rfl

theorem kept_numberSetting {n : Option NumberLit} :
    (numberSetting name n).map Setting.kept
      = numberSetting name ((n.map NumberLit.erase).map NumberLit.reduced) := by
  cases n <;> rfl

theorem kept_importanceSetting {i : Option Importance} :
    (importanceSetting name i).map Setting.kept = importanceSetting name i := by
  cases i <;> rfl

theorem kept_partSetting {p : Option AddressPart} :
    (partSetting p).map Setting.kept = partSetting p := by
  cases p <;> rfl

theorem kept_aboveSetting {above : Bool} :
    (aboveSetting above).map Setting.kept = aboveSetting above := rfl

theorem kept_optionSettings {o : MatchOptions} :
    (optionSettings o).map Setting.kept = optionSettings o.erase := by
  obtain ⟨m, r, s⟩ := o
  cases m <;> cases r <;> cases s <;> rfl

theorem kept_transformSetting {t : Option BodyTransform} :
    (transformSetting t).map Setting.kept = transformSetting (t.map BodyTransform.erase) := by
  match t with
  | none | some .raw | some .text | some (.content _) => rfl

theorem kept_modifiers {ms : List SetModifier} :
    (ms.map fun m => (⟨m.word, .none⟩ : Setting)).map Setting.kept
      = ms.map fun m => ⟨m.word, .none⟩ := by
  rw [List.map_map]
  rfl

theorem Test.kept_clause {t : Test} {k : TestKeyword} {c : Clause} (h : t.clause? = some (k, c)) :
    t.kept.clause? = some (k, c.kept) ∧ t.kept.location = none := by
  cases t with
  | negation | allOf | anyOf | generic => cases h
  | hasFlag t =>
    obtain ⟨options, _ | names, flags, l⟩ := t <;> cases h <;>
      simp [Test.kept, Test.erase, HasFlagTest.erase, Test.reduced, Test.norm, Test.clause?,
        Test.location, Clause.kept, kept_optionSettings, Positional.kept]
  | _ =>
    cases h
    simp [Test.kept, Test.erase, AddressTest.erase, HeaderTest.erase, EnvelopeTest.erase,
      SizeTest.erase, BodyTest.erase, DateTest.erase, CurrentDateTest.erase, StringTest.erase,
      DuplicateTest.erase, Test.reduced, Test.norm, Test.clause?, Test.location, Clause.kept,
      List.map_append, kept_flagSetting, kept_stringSetting, kept_numberSetting, kept_partSetting,
      kept_aboveSetting, kept_optionSettings, kept_transformSetting, Positional.kept]

theorem Command.kept_clause {c : Command} {k : CommandKeyword} {cl : Clause}
    (h : c.clause? = some (k, cl)) :
    c.kept.clause? = some (k, cl.kept) ∧ c.kept.location = none := by
  cases c with
  | ifTest | generic | genericBlock => cases h
  | flag c =>
    obtain ⟨action, _ | name, flags, l⟩ := c <;> cases h <;>
      simp [Command.kept, Command.erase, FlagCommand.erase, Command.reduced, Command.norm,
        Command.clause?, Command.location, Clause.kept, Positional.kept]
  | _ =>
    cases h
    simp [Command.kept, Command.erase, RequireCommand.erase, KeepCommand.erase,
      FileIntoCommand.erase, RedirectCommand.erase, RejectCommand.erase, SetCommand.erase,
      VacationCommand.erase, NotifyCommand.erase, Command.reduced, Command.norm, Command.clause?,
      Command.location, Clause.kept, List.map_append, kept_flagSetting, kept_stringSetting,
      kept_stringsSetting, kept_numberSetting, kept_importanceSetting, kept_modifiers,
      Positional.kept, -List.map_map]

theorem Test.kept_readable {t : Test} {k : TestKeyword} {c : Clause}
    (h : t.clause? = some (k, c)) (hr : t.Obeys .readable) : t.kept.Obeys .readable := by
  have ho {o : MatchOptions} (ho : o.Obeys .readable) : o.erase.Obeys .readable :=
    ⟨ho.1, fun _ _ => trivial⟩
  cases t with
  | negation | allOf | anyOf | generic => cases h
  | date t =>
    obtain ⟨hd, -, hx, -⟩ := hr
    exact ⟨by simpa [TreeLaw.readable, DateTest.erase] using hd, by simp, ho hx, by simp⟩
  | duplicate t =>
    obtain ⟨hd, -⟩ := hr
    exact ⟨by simpa [TreeLaw.readable, DuplicateTest.erase] using hd, by simp⟩
  | body t => exact ⟨by simp, ho hr.2.1, by simp⟩
  | currentDate t => exact ⟨by simp, ho hr.2.1, by simp⟩
  | size t => exact ⟨by simp, by simp⟩
  | headerExists | ihave => exact ⟨by simp, by simp⟩
  | always | never => trivial
  | _ => exact ⟨ho hr.1, by simp⟩

theorem Command.kept_readable {c : Command} {k : CommandKeyword} {cl : Clause}
    (h : c.clause? = some (k, cl)) (hr : c.Obeys .readable) : c.kept.Obeys .readable := by
  cases c with
  | ifTest | generic | genericBlock => cases h
  | vacation c =>
    obtain ⟨hv, -⟩ := hr
    exact ⟨by simpa [TreeLaw.readable, VacationCommand.erase] using hv, by simp⟩
  | stop | discard => trivial
  | require | keep | fileInto | redirect | reject | setVariable | flag | notify =>
    simp [Command.kept, Command.erase, Command.reduced, Command.norm, Command.Obeys,
      RequireCommand.Obeys, KeepCommand.Obeys, FileIntoCommand.Obeys, RedirectCommand.Obeys,
      RejectCommand.Obeys, SetCommand.Obeys, FlagCommand.Obeys, NotifyCommand.Obeys]

end Clauses

section Nested

variable {t : Test} {b : Block} {c : Chain} {l : Option Location} {as : List Argument}

namespace Command

theorem kept_ifTest : (ifTest t b c l).kept = ifTest t.kept b.kept c.kept none := rfl

theorem kept_generic {name : String} :
    (generic name as l).kept = generic name (as.map Argument.kept) none := by
  rw [← keptArguments_eq_map]
  rfl

theorem kept_genericBlock {name : String} :
    (genericBlock name as b l).kept = genericBlock name (as.map Argument.kept) b.kept none := by
  rw [← keptArguments_eq_map]
  rfl

end Command

namespace Block

theorem kept_mk {cs : List Command} : (mk cs l).kept = mk (cs.map Command.kept) none := by
  rw [← keptCommands_eq_map]
  rfl

end Block

namespace Chain

theorem kept_elsif : (elsif t b c l).kept = elsif t.kept b.kept c.kept none := rfl

end Chain

end Nested

end MailSieve
