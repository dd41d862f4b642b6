import MailSieve.Proofs.Canonical.Token
import MailSieve.Proofs.Phrase.Induction

/-! What the canonical form of a tree overlooks.
A tree is written alike with and without its locations, and whether a single string among the
arguments of a generic node stands in a list or by itself. -/

namespace MailSieve

namespace Canonical

open Phrase

/-! A change that none of its parts shows does not show in a list. -/

section Lists

theorem testsMarks_map {f : Test → Test} {ts : List Test}
    (h : ∀ t ∈ ts, testMarks (f t) = testMarks t) : testsMarks (ts.map f) = testsMarks ts := by
  rw [testsMarks_eq_map, testsMarks_eq_map, List.map_map]
  exact List.map_congr_left h

theorem argumentsMarks_map {f : Argument → Argument} {as : List Argument}
    (h : ∀ a ∈ as, argumentMarks (f a) = argumentMarks a) :
    argumentsMarks (as.map f) = argumentsMarks as := by
  induction as with
  | nil => rfl
  | cons a as ih =>
    obtain ⟨ha, has⟩ := List.forall_mem_cons.1 h
    rw [List.map_cons, argumentsMarks, argumentsMarks, ha, ih has]

theorem linesMarks_map {f : Command → Command} {cs : List Command} {depth : Nat}
    (h : ∀ c ∈ cs, commandMarks depth (f c) = commandMarks depth c) :
    linesMarks depth (cs.map f) = linesMarks depth cs := by
  induction cs with
  | nil => rfl
  | cons c cs ih =>
    obtain ⟨hc, hcs⟩ := List.forall_mem_cons.1 h
    rw [List.map_cons, linesMarks, linesMarks, hc, ih hcs]

theorem blockMarks_map {f : Command → Command} {cs : List Command} {k l : Option Location}
    {depth : Nat} (h : ∀ c ∈ cs, ∀ depth, commandMarks depth (f c) = commandMarks depth c) :
    blockMarks depth (.mk (cs.map f) k) = blockMarks depth (.mk cs l) := by
  cases cs with
  | nil => rfl
  | cons c cs =>
    obtain ⟨hc, hcs⟩ := List.forall_mem_cons.1 h
    rw [List.map_cons, blockMarks, blockMarks, hc, linesMarks_map fun c hm => hcs c hm _]

theorem scriptMarks_map {f : Command → Command} {cs : List Command}
    (h : ∀ c ∈ cs, ∀ depth, commandMarks depth (f c) = commandMarks depth c) :
    scriptMarks (cs.map f) = scriptMarks cs := by
  cases cs with
  | nil => rfl
  | cons c cs =>
    obtain ⟨hc, hcs⟩ := List.forall_mem_cons.1 h
    rw [List.map_cons, scriptMarks, scriptMarks, hc, linesMarks_map fun c hm => hcs c hm 0]

end Lists

section Erased

theorem stringListMarks_erase (l : StringList) : stringListMarks l.erase = stringListMarks l := by
  rw [stringListMarks, stringListMarks, StringList.erase, List.map_map]
  rfl

theorem tagWith_map {α : Type} {f : α → α} {marks : α → List Mark} (h : ∀ a, marks (f a) = marks a)
    (name : String) (a : Option α) : tagWith name marks (a.map f) = tagWith name marks a := by
  cases a with
  | none => rfl
  | some a => simp only [Option.map_some, tagWith, h a]

theorem taggedString_erase (name : String) (s : Option StringLit) :
    taggedString name (s.map StringLit.erase) = taggedString name s :=
  tagWith_map (f := StringLit.erase) (fun _ => rfl) name s

theorem taggedStrings_erase (name : String) (l : Option StringList) :
    taggedStrings name (l.map StringList.erase) = taggedStrings name l :=
  tagWith_map stringListMarks_erase name l

theorem taggedNumber_erase (name : String) (n : Option NumberLit) :
    taggedNumber name (n.map NumberLit.erase) = taggedNumber name n :=
  tagWith_map (f := NumberLit.erase) (fun _ => rfl) name n

theorem optionMarks_erase (o : MatchOptions) : optionMarks o.erase = optionMarks o := by
  simp only [optionMarks, MatchOptions.erase, taggedString_erase]

theorem transformMarks_erase (b : Option BodyTransform) :
    transformMarks (b.map BodyTransform.erase) = transformMarks b := by
  cases b with
  | none => rfl
  | some b =>
    cases b with
    | raw | text => rfl
    | content types => exact taggedStrings_erase "content" (some types)

theorem elim_strings_erase (l : Option StringList) :
    ((l.map StringList.erase).elim [] fun l => spaced (stringListMarks l))
      = l.elim [] fun l => spaced (stringListMarks l) := by
  cases l with
  | none => rfl
  | some l => simp only [Option.map_some, Option.elim_some, stringListMarks_erase]

theorem marks_erase_clause {t : Test} {k : TestKeyword} {c : Clause}
    (h : t.clause? = some (k, c)) : testMarks t.erase = testMarks t := by
  cases t with
  | negation | allOf | anyOf | generic => cases h
  | always | never | size => rfl
  | address t =>
    simp only [Test.erase, testMarks, AddressTest.erase, addressMarks, optionMarks_erase,
      stringListMarks_erase]
  | envelope t =>
    simp only [Test.erase, testMarks, EnvelopeTest.erase, envelopeMarks, optionMarks_erase,
      stringListMarks_erase]
  | header t =>
    simp only [Test.erase, testMarks, HeaderTest.erase, headerMarks, optionMarks_erase,
      stringListMarks_erase]
  | headerExists | ihave => simp only [Test.erase, testMarks, stringListMarks_erase]
  | body t =>
    simp only [Test.erase, testMarks, BodyTest.erase, bodyMarks, transformMarks_erase,
      optionMarks_erase, stringListMarks_erase]
  | date t =>
    simp only [Test.erase, testMarks, DateTest.erase, dateMarks, taggedString_erase,
      optionMarks_erase, stringListMarks_erase, stringMark, StringLit.erase]
  | currentDate t =>
    simp only [Test.erase, testMarks, CurrentDateTest.erase, currentDateMarks, taggedString_erase,
      optionMarks_erase, stringListMarks_erase, stringMark, StringLit.erase]
  | hasFlag t =>
    simp only [Test.erase, testMarks, HasFlagTest.erase, hasFlagMarks, optionMarks_erase,
      elim_strings_erase, stringListMarks_erase]
  | string t =>
    simp only [Test.erase, testMarks, StringTest.erase, stringTestMarks, optionMarks_erase,
      stringListMarks_erase]
  | duplicate t =>
    simp only [Test.erase, testMarks, DuplicateTest.erase, duplicateMarks, taggedString_erase,
      taggedNumber_erase]

theorem argumentMarks_erase {a : Argument}
    (h : ∀ ts l, a = .tests ts l → ∀ t ∈ ts, testMarks t.erase = testMarks t) :
    argumentMarks a.erase = argumentMarks a := by
  cases a with
  | tag | number | string => rfl
  | strings l => exact stringListMarks_erase l
  | tests ts l =>
    rw [Argument.erase_tests, argumentMarks, argumentMarks, testsMarks_map (h ts l rfl)]

theorem testMarks_erase (t : Test) : testMarks t.erase = testMarks t := by
  refine TestCases.test (P := fun t => testMarks t.erase = testMarks t) ⟨?_, ?_, ?_, ?_, ?_⟩ t
  · exact marks_erase_clause
  · intro t l ih
    rw [Test.erase, testMarks, testMarks, ih]
  · intro ts l ih
    rw [Test.erase_allOf, testMarks, testMarks, testsMarks_map ih]
  · intro ts l ih
    rw [Test.erase_anyOf, testMarks, testMarks, testsMarks_map ih]
  · intro name as l ih
    rw [Test.erase_generic, testMarks, testMarks, argumentsMarks_map fun a ha =>
      argumentMarks_erase fun ts l he => ih ts l (he ▸ ha)]

theorem argumentsMarks_erase (as : List Argument) :
    argumentsMarks (as.map Argument.erase) = argumentsMarks as :=
  argumentsMarks_map fun _ _ => argumentMarks_erase fun _ _ _ t _ => testMarks_erase t

theorem marks_erase_commandClause {c : Command} {k : CommandKeyword} {cl : Clause}
    (h : c.clause? = some (k, cl)) (depth : Nat) :
    commandMarks depth c.erase = commandMarks depth c := by
  cases c with
  | ifTest | generic | genericBlock => cases h
  | require | stop | discard | redirect | reject | setVariable => rfl
  | keep c => simp only [Command.erase, commandMarks, KeepCommand.erase, taggedStrings_erase]
  | fileInto c =>
    simp only [Command.erase, commandMarks, FileIntoCommand.erase, fileIntoMarks,
      taggedStrings_erase, stringMark, StringLit.erase]
  | vacation c =>
    simp only [Command.erase, commandMarks, VacationCommand.erase, vacationMarks,
      taggedNumber_erase, taggedString_erase, taggedStrings_erase, stringMark, StringLit.erase]
  | flag c =>
    obtain ⟨action, name, flags, l⟩ := c
    cases name <;>
      simp only [Command.erase, commandMarks, FlagCommand.erase, flagMarks, stringListMarks_erase,
        Option.map_none, Option.map_some, Option.elim_none, Option.elim_some, stringMark,
        StringLit.erase]
  | notify c =>
    simp only [Command.erase, commandMarks, NotifyCommand.erase, notifyMarks, taggedString_erase,
      taggedStrings_erase, stringMark, StringLit.erase]

theorem commandCases_marks_erase :
    CommandCases (fun c => ∀ depth, commandMarks depth c.erase = commandMarks depth c)
      (fun b => ∀ depth, blockMarks depth b.erase = blockMarks depth b)
      (fun c => ∀ depth, chainMarks depth c.erase = chainMarks depth c) where
  clause := marks_erase_commandClause
  ifTest := by
    intro t b c l hb hc depth
    rw [Command.erase, commandMarks, commandMarks, testMarks_erase, hb, hc]
  generic := by
    intro name as l depth
    rw [Command.erase_generic, commandMarks, commandMarks, argumentsMarks_erase]
  genericBlock := by
    intro name as b l hb depth
    rw [Command.erase_genericBlock, commandMarks, commandMarks, argumentsMarks_erase, hb]
  block := by
    intro cs l ih depth
    rw [Block.erase_mk, blockMarks_map ih]
  done := fun _ => rfl
  elsif := by
    intro t b c l hb hc depth
    rw [Chain.erase, chainMarks, chainMarks, testMarks_erase, hb, hc]
  otherwise := by
    intro b l hb depth
    rw [Chain.erase, chainMarks, chainMarks, hb]

end Erased

section Normal

theorem argumentMarks_norm {a : Argument}
    (h : ∀ ts l, a = .tests ts l → ∀ t ∈ ts, testMarks t.norm = testMarks t) :
    argumentMarks a.norm = argumentMarks a := by
  cases a with
  | tag | number | string => rfl
  | strings l =>
    obtain ⟨values, l⟩ := l
    rcases values with _ | ⟨s, _ | ⟨s', values⟩⟩ <;> rfl
  | tests ts l =>
    rw [Argument.norm, normTests_eq_map, argumentMarks, argumentMarks, testsMarks_map (h ts l rfl)]

theorem testMarks_norm (t : Test) : testMarks t.norm = testMarks t := by
  refine TestCases.test (P := fun t => testMarks t.norm = testMarks t) ⟨?_, ?_, ?_, ?_, ?_⟩ t
  · intro t k c h
    cases t with
    | negation | allOf | anyOf | generic => cases h
    | _ => rfl
  · intro t l ih
    rw [Test.norm, testMarks, testMarks, ih]
  · intro ts l ih
    rw [Test.norm, normTests_eq_map, testMarks, testMarks, testsMarks_map ih]
  · intro ts l ih
    rw [Test.norm, normTests_eq_map, testMarks, testMarks, testsMarks_map ih]
  · intro name as l ih
    rw [Test.norm, normArguments_eq_map, testMarks, testMarks, argumentsMarks_map fun a ha =>
      argumentMarks_norm fun ts l he => ih ts l (he ▸ ha)]

theorem argumentsMarks_norm (as : List Argument) :
    argumentsMarks (as.map Argument.norm) = argumentsMarks as :=
  argumentsMarks_map fun _ _ => argumentMarks_norm fun _ _ _ t _ => testMarks_norm t

theorem commandCases_marks_norm :
    CommandCases (fun c => ∀ depth, commandMarks depth c.norm = commandMarks depth c)
      (fun b => ∀ depth, blockMarks depth b.norm = blockMarks depth b)
      (fun c => ∀ depth, chainMarks depth c.norm = chainMarks depth c) where
  clause := by
    intro c k cl h depth
    cases c with
    | ifTest | generic | genericBlock => cases h
    | _ => rfl
  ifTest := by
    intro t b c l hb hc depth
    rw [Command.norm, commandMarks, commandMarks, testMarks_norm, hb, hc]
  generic := by
    intro name as l depth
    rw [Command.norm, normArguments_eq_map, commandMarks, commandMarks, argumentsMarks_norm]
  genericBlock := by
    intro name as b l hb depth
    rw [Command.norm, normArguments_eq_map, commandMarks, commandMarks, argumentsMarks_norm, hb]
  block := by
    intro cs l ih depth
    rw [Block.norm, normCommands_eq_map, blockMarks_map ih]
  done := fun _ => rfl
  elsif := by
    intro t b c l hb hc depth
    rw [Chain.norm, chainMarks, chainMarks, testMarks_norm, hb, hc]
  otherwise := by
    intro b l hb depth
    rw [Chain.norm, chainMarks, chainMarks, hb]

end Normal

end Canonical

namespace Script

open Canonical

theorem generate_erase (s : Script) (l : Layout) : s.erase.generate l = s.generate l := by
  rw [generate, generate, commands_erase,
    scriptMarks_map fun c _ depth => commandCases_marks_erase.command c depth]

theorem generate_norm (s : Script) (l : Layout) : s.norm.generate l = s.generate l := by
  rw [generate, generate, norm, normCommands_eq_map,
    scriptMarks_map fun c _ depth => commandCases_marks_norm.command c depth]

end Script

end MailSieve
