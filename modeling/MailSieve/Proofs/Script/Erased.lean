import MailSieve.Proofs.Phrase.Induction
import MailSieve.Proofs.Script.Depth
import MailSieve.Proofs.Script.Norm

/-! What erasing the locations of a tree leaves alone.
A law that overlooks locations holds of a tree exactly if it holds of the tree erased, and both are
nested equally deep. -/

namespace MailSieve

open Phrase

/-- Asks nothing of locations, and the same of every place with and without them. -/
structure TreeLaw.Overlooks (L : TreeLaw) : Prop where
  location : ∀ l, L.location l
  number : ∀ n : NumberLit, L.number n.erase ↔ L.number n
  strings : ∀ vs : List StringLit, L.strings (vs.map StringLit.erase) ↔ L.strings vs
  tests : ∀ ts : List Test, L.tests (ts.map Test.erase) ↔ L.tests ts
  arguments : ∀ as : List Argument, L.arguments (as.map Argument.erase) ↔ L.arguments as
  options : ∀ o : MatchOptions, L.options o.erase ↔ L.options o
  vacation : ∀ c : VacationCommand, L.vacation c.erase ↔ L.vacation c
  date : ∀ t : DateTest, L.date t.erase ↔ L.date t
  duplicate : ∀ t : DuplicateTest, L.duplicate t.erase ↔ L.duplicate t

section Laws

variable {L : TreeLaw}

theorem forall_mem_map_erase {α : Type} {erase : α → α} {P : α → Prop}
    (h : ∀ a, P (erase a) ↔ P a) (o : Option α) : (∀ a ∈ o.map erase, P a) ↔ ∀ a ∈ o, P a := by
  cases o with
  | none => simp
  | some a => simpa using h a

theorem forall_mem_map_congr {α : Type} {f : α → α} {P : α → Prop} {as : List α}
    (h : ∀ a ∈ as, (P (f a) ↔ P a)) : (∀ a ∈ as.map f, P a) ↔ ∀ a ∈ as, P a := by
  rw [List.forall_mem_map]
  exact forall₂_congr h

theorem testsObey_erase {ts : List Test} (h : ∀ t ∈ ts, (t.erase.Obeys L ↔ t.Obeys L)) :
    TestsObey L (ts.map Test.erase) ↔ TestsObey L ts := by
  rw [testsObey_iff, testsObey_iff, forall_mem_map_congr h]

theorem commandsObey_erase {cs : List Command} (h : ∀ c ∈ cs, (c.erase.Obeys L ↔ c.Obeys L)) :
    CommandsObey L (cs.map Command.erase) ↔ CommandsObey L cs := by
  rw [commandsObey_iff, commandsObey_iff, forall_mem_map_congr h]

variable (hL : L.Overlooks)
include hL

theorem StringLit.obeys_of_overlooks (s : StringLit) : s.Obeys L := hL.location _

theorem NumberLit.obeys_erase (n : NumberLit) : n.erase.Obeys L ↔ n.Obeys L := by
  simp only [Obeys, hL.number, hL.location]

theorem StringList.obeys_erase (l : StringList) : l.erase.Obeys L ↔ l.Obeys L := by
  simp only [Obeys, erase, hL.strings, hL.location, StringLit.obeys_of_overlooks hL, implies_true]

theorem MatchOptions.obeys_erase (o : MatchOptions) : o.erase.Obeys L ↔ o.Obeys L := by
  simp only [Obeys, hL.options, StringLit.obeys_of_overlooks hL, implies_true]

theorem BodyTransform.obeys_erase (b : BodyTransform) : b.erase.Obeys L ↔ b.Obeys L := by
  cases b with
  | raw | text => rfl
  | content types => exact types.obeys_erase hL

theorem obeys_erase_clause {t : Test} {k : TestKeyword} {c : Clause}
    (h : t.clause? = some (k, c)) : t.erase.Obeys L ↔ t.Obeys L := by
  cases t with
  | negation | allOf | anyOf | generic => cases h
  | always | never => exact iff_of_true (hL.location _) (hL.location _)
  | address t =>
    simp only [Test.erase, Test.Obeys, AddressTest.Obeys, AddressTest.erase, hL.location,
      StringList.obeys_erase hL, MatchOptions.obeys_erase hL]
  | envelope t =>
    simp only [Test.erase, Test.Obeys, EnvelopeTest.Obeys, EnvelopeTest.erase, hL.location,
      StringList.obeys_erase hL, MatchOptions.obeys_erase hL]
  | header t =>
    simp only [Test.erase, Test.Obeys, HeaderTest.Obeys, HeaderTest.erase, hL.location,
      StringList.obeys_erase hL, MatchOptions.obeys_erase hL]
  | headerExists | ihave =>
    simp only [Test.erase, Test.Obeys, hL.location, StringList.obeys_erase hL]
  | size t =>
    simp only [Test.erase, Test.Obeys, SizeTest.Obeys, SizeTest.erase, hL.location,
      NumberLit.obeys_erase hL]
  | body t =>
    simp only [Test.erase, Test.Obeys, BodyTest.Obeys, BodyTest.erase, hL.location,
      forall_mem_map_erase (BodyTransform.obeys_erase hL), StringList.obeys_erase hL,
      MatchOptions.obeys_erase hL]
  | date t =>
    have hdate := hL.date t
    rw [DateTest.erase] at hdate
    simp only [Test.erase, Test.Obeys, DateTest.Obeys, DateTest.erase, hdate, hL.location,
      StringLit.obeys_of_overlooks hL, StringList.obeys_erase hL, MatchOptions.obeys_erase hL,
      implies_true]
  | currentDate t =>
    simp only [Test.erase, Test.Obeys, CurrentDateTest.Obeys, CurrentDateTest.erase, hL.location,
      StringLit.obeys_of_overlooks hL, StringList.obeys_erase hL, MatchOptions.obeys_erase hL,
      implies_true]
  | hasFlag t =>
    simp only [Test.erase, Test.Obeys, HasFlagTest.Obeys, HasFlagTest.erase, hL.location,
      forall_mem_map_erase (StringList.obeys_erase hL), StringList.obeys_erase hL,
      MatchOptions.obeys_erase hL]
  | string t =>
    simp only [Test.erase, Test.Obeys, StringTest.Obeys, StringTest.erase, hL.location,
      StringList.obeys_erase hL, MatchOptions.obeys_erase hL]
  | duplicate t =>
    have hduplicate := hL.duplicate t
    rw [DuplicateTest.erase] at hduplicate
    simp only [Test.erase, Test.Obeys, DuplicateTest.Obeys, DuplicateTest.erase, hduplicate,
      hL.location, StringLit.obeys_of_overlooks hL, forall_mem_map_erase (NumberLit.obeys_erase hL),
      implies_true]

theorem argumentsObey_erase {as : List Argument}
    (h : ∀ ts l, .tests ts l ∈ as → ∀ t ∈ ts, (t.erase.Obeys L ↔ t.Obeys L)) :
    ArgumentsObey L (as.map Argument.erase) ↔ ArgumentsObey L as := by
  rw [argumentsObey_iff, argumentsObey_iff]
  refine forall_mem_map_congr fun a hm => ?_
  cases a with
  | tag name l => simp only [Argument.erase, Argument.Obeys, hL.location]
  | number n => exact n.obeys_erase hL
  | string s => exact iff_of_true (s.erase.obeys_of_overlooks hL) (s.obeys_of_overlooks hL)
  | strings l => exact l.obeys_erase hL
  | tests ts l =>
    simp only [Argument.erase_tests, Argument.Obeys, hL.tests, testsObey_erase (h ts l hm),
      hL.location]

theorem Test.obeys_erase (t : Test) : t.erase.Obeys L ↔ t.Obeys L := by
  refine TestCases.test (P := fun t => t.erase.Obeys L ↔ t.Obeys L) ⟨?_, ?_, ?_, ?_, ?_⟩ t
  · exact obeys_erase_clause hL
  · intro t l ih
    simp only [Test.erase, Test.Obeys, ih, hL.location]
  · intro ts l ih
    simp only [Test.erase_allOf, Test.Obeys, hL.tests, testsObey_erase ih, hL.location]
  · intro ts l ih
    simp only [Test.erase_anyOf, Test.Obeys, hL.tests, testsObey_erase ih, hL.location]
  · intro name as l ih
    simp only [Test.erase_generic, Test.Obeys, hL.arguments, argumentsObey_erase hL ih,
      hL.location]

theorem obeys_erase_commandClause {c : Command} {k : CommandKeyword} {cl : Clause}
    (h : c.clause? = some (k, cl)) : c.erase.Obeys L ↔ c.Obeys L := by
  cases c with
  | ifTest | generic | genericBlock => cases h
  | stop | discard => exact iff_of_true (hL.location _) (hL.location _)
  | require c =>
    simp only [Command.erase, Command.Obeys, RequireCommand.Obeys, RequireCommand.erase,
      hL.location]
  | keep c =>
    simp only [Command.erase, Command.Obeys, KeepCommand.Obeys, KeepCommand.erase, hL.location,
      forall_mem_map_erase (StringList.obeys_erase hL)]
  | fileInto c =>
    simp only [Command.erase, Command.Obeys, FileIntoCommand.Obeys, FileIntoCommand.erase,
      hL.location, StringLit.obeys_of_overlooks hL,
      forall_mem_map_erase (StringList.obeys_erase hL)]
  | redirect c =>
    simp only [Command.erase, Command.Obeys, RedirectCommand.Obeys, RedirectCommand.erase,
      hL.location, StringLit.obeys_of_overlooks hL]
  | reject c =>
    simp only [Command.erase, Command.Obeys, RejectCommand.Obeys, RejectCommand.erase,
      hL.location, StringLit.obeys_of_overlooks hL]
  | setVariable c =>
    simp only [Command.erase, Command.Obeys, SetCommand.Obeys, SetCommand.erase, hL.location,
      StringLit.obeys_of_overlooks hL]
  | vacation c =>
    have hvacation := hL.vacation c
    rw [VacationCommand.erase] at hvacation
    simp only [Command.erase, Command.Obeys, VacationCommand.Obeys, VacationCommand.erase,
      hvacation, hL.location, StringLit.obeys_of_overlooks hL, implies_true,
      forall_mem_map_erase (NumberLit.obeys_erase hL),
      forall_mem_map_erase (StringList.obeys_erase hL)]
  | flag c =>
    simp only [Command.erase, Command.Obeys, FlagCommand.Obeys, FlagCommand.erase, hL.location,
      StringLit.obeys_of_overlooks hL, StringList.obeys_erase hL, implies_true]
  | notify c =>
    simp only [Command.erase, Command.Obeys, NotifyCommand.Obeys, NotifyCommand.erase,
      hL.location, StringLit.obeys_of_overlooks hL, implies_true,
      forall_mem_map_erase (StringList.obeys_erase hL)]

theorem commandCases_obeys_erase : CommandCases (fun c => c.erase.Obeys L ↔ c.Obeys L)
    (fun b => b.erase.Obeys L ↔ b.Obeys L) (fun c => c.erase.Obeys L ↔ c.Obeys L) where
  clause := obeys_erase_commandClause hL
  ifTest := by
    intro t b c l hb hc
    simp only [Command.erase, Command.Obeys, t.obeys_erase hL, hb, hc, hL.location]
  generic := by
    intro name as l
    have has := argumentsObey_erase hL fun ts _ (_ : _ ∈ as) t (_ : t ∈ ts) => t.obeys_erase hL
    simp only [Command.erase_generic, Command.Obeys, hL.arguments, has, hL.location]
  genericBlock := by
    intro name as b l hb
    have has := argumentsObey_erase hL fun ts _ (_ : _ ∈ as) t (_ : t ∈ ts) => t.obeys_erase hL
    simp only [Command.erase_genericBlock, Command.Obeys, hL.arguments, has, hb, hL.location]
  block := by
    intro cs l ih
    simp only [Block.erase_mk, Block.Obeys, commandsObey_erase ih, hL.location]
  done := Iff.rfl
  elsif := by
    intro t b c l hb hc
    simp only [Chain.erase, Chain.Obeys, t.obeys_erase hL, hb, hc, hL.location]
  otherwise := by
    intro b l hb
    simp only [Chain.erase, Chain.Obeys, hb, hL.location]

theorem Script.obeys_erase (s : Script) : s.erase.Obeys L ↔ s.Obeys L := by
  have hcommands := commandsObey_erase fun c (_ : c ∈ s.commands) =>
    (commandCases_obeys_erase hL).command c
  simp only [Obeys, commands_erase, hcommands, hL.location]

end Laws

section Depth

theorem testsDepth_erase {ts : List Test} (h : ∀ t ∈ ts, t.erase.depth = t.depth) :
    testsDepth (ts.map Test.erase) = testsDepth ts := by
  induction ts with
  | nil => rfl
  | cons t ts ih =>
    obtain ⟨ht, hts⟩ := List.forall_mem_cons.1 h
    rw [List.map_cons, testsDepth, testsDepth, ht, ih hts]

theorem argumentsDepth_erase {as : List Argument}
    (h : ∀ ts l, .tests ts l ∈ as → ∀ t ∈ ts, t.erase.depth = t.depth) :
    argumentsDepth (as.map Argument.erase) = argumentsDepth as := by
  induction as with
  | nil => rfl
  | cons a as ih =>
    have ha : a.erase.depth = a.depth := by
      cases a with
      | tests ts l =>
        rw [Argument.erase_tests, Argument.depth, Argument.depth,
          testsDepth_erase (h ts l (List.mem_cons_self ..))]
      | _ => rfl
    rw [List.map_cons, argumentsDepth, argumentsDepth, ha,
      ih fun ts l hm => h ts l (List.mem_cons_of_mem _ hm)]

theorem Test.depth_erase (t : Test) : t.erase.depth = t.depth := by
  refine TestCases.test (P := fun t => t.erase.depth = t.depth) ⟨?_, ?_, ?_, ?_, ?_⟩ t
  · intro t k c h
    cases t with
    | negation | allOf | anyOf | generic => cases h
    | _ => rfl
  · intro t l ih
    rw [Test.erase, Test.depth, Test.depth, ih]
  · intro ts l ih
    rw [Test.erase_allOf, Test.depth, Test.depth, testsDepth_erase ih]
  · intro ts l ih
    rw [Test.erase_anyOf, Test.depth, Test.depth, testsDepth_erase ih]
  · intro name as l ih
    rw [Test.erase_generic, Test.depth, Test.depth, argumentsDepth_erase ih]

theorem commandsDepth_erase {cs : List Command} (h : ∀ c ∈ cs, c.erase.depth = c.depth) :
    commandsDepth (cs.map Command.erase) = commandsDepth cs := by
  induction cs with
  | nil => rfl
  | cons c cs ih =>
    obtain ⟨hc, hcs⟩ := List.forall_mem_cons.1 h
    rw [List.map_cons, commandsDepth, commandsDepth, hc, ih hcs]

theorem commandCases_depth_erase : CommandCases (fun c => c.erase.depth = c.depth)
    (fun b => b.erase.depth = b.depth) (fun c => c.erase.depth = c.depth) where
  clause := by
    intro c k cl h
    cases c with
    | ifTest | generic | genericBlock => cases h
    | _ => rfl
  ifTest := by
    intro t b c l hb hc
    rw [Command.erase, Command.depth, Command.depth, t.depth_erase, hb, hc]
  generic := by
    intro name as l
    rw [Command.erase_generic, Command.depth, Command.depth,
      argumentsDepth_erase fun _ _ _ t _ => t.depth_erase]
  genericBlock := by
    intro name as b l hb
    rw [Command.erase_genericBlock, Command.depth, Command.depth,
      argumentsDepth_erase fun _ _ _ t _ => t.depth_erase, hb]
  block := by
    intro cs l ih
    rw [Block.erase_mk, Block.depth, Block.depth, commandsDepth_erase ih]
  done := rfl
  elsif := by
    intro t b c l hb hc
    rw [Chain.erase, Chain.depth, Chain.depth, t.depth_erase, hb, hc]
  otherwise := by
    intro b l hb
    rw [Chain.erase, Chain.depth, Chain.depth, hb]

theorem Script.depth_erase (s : Script) : s.erase.depth = s.depth := by
  rw [depth, commands_erase, commandsDepth_erase fun c _ => commandCases_depth_erase.command c]
  rfl

end Depth

end MailSieve
