import MailSieve.Proofs.Phrase.Derivation
import MailSieve.Proofs.Script.Depth

/-! Laws that the grammar keeps.
A law is grammatical for tokens of some sort if it asks of a tree no more than what holds of every
phrase of such tokens: lists are not empty, names are no keywords, tests stand last, no location is
there. Every tree that such tokens denote obeys it, and is nested no deeper than the levels of the
phrase. -/

namespace MailSieve

open Phrase

namespace Phrase

variable (L : TreeLaw)

def Setting.Obeys (s : Setting) : Prop :=
  match s.value with
  | .string s => s.Obeys L
  | .strings l => l.Obeys L
  | .number n => n.Obeys L
  | .none | .operator _ | .importance _ => True

def Positional.Obeys : Positional → Prop
  | string s => s.Obeys L
  | strings l => l.Obeys L
  | number n => n.Obeys L
  | texts values => L.capabilities values

structure Clause.Obeys (c : Clause) : Prop where
  settings : ∀ s ∈ c.settings, s.Obeys L
  positionals : ∀ p ∈ c.positionals, p.Obeys L

theorem Clause.Arranges.mem_iff {c : Clause} {ss : List Setting} (h : c.Arranges ss) {s : Setting} :
    s ∈ ss ↔ s ∈ c.settings := by
  rw [Arranges] at h
  split at h
  · rw [h]
  · exact h.mem_iff

end Phrase

namespace TreeLaw

/-- What a law asks of tags that stand together. -/
def together (L : TreeLaw) : TreeLaw where
  options := L.options
  vacation := L.vacation
  date := L.date
  duplicate := L.duplicate

end TreeLaw

section Together

variable {L : TreeLaw}

@[simp] theorem stringLit_together (s : StringLit) : s.Obeys L.together := trivial

@[simp] theorem stringList_together (l : StringList) : l.Obeys L.together :=
  ⟨trivial, trivial, fun _ _ => trivial⟩

@[simp] theorem numberLit_together (n : NumberLit) : n.Obeys L.together := ⟨trivial, trivial⟩

@[simp] theorem bodyTransform_together (b : BodyTransform) : b.Obeys L.together := by
  cases b <;> simp [BodyTransform.Obeys]

@[simp] theorem location_together (l : Option Location) : L.together.location l := trivial

@[simp] theorem capabilities_together (l : List String) : L.together.capabilities l := trivial

@[simp] theorem options_together : L.together.options = L.options := rfl

@[simp] theorem vacation_together : L.together.vacation = L.vacation := rfl

@[simp] theorem date_together : L.together.date = L.date := rfl

@[simp] theorem duplicate_together : L.together.duplicate = L.duplicate := rfl

end Together

section Clauses

variable {L : TreeLaw} {α : Type} {name : String}

theorem forall_settingOf {f : α → Setting} {a : Option α} {P : Setting → Prop} :
    (∀ s ∈ settingOf f a, P s) ↔ ∀ x ∈ a, P (f x) := by
  cases a <;> simp [settingOf]

theorem obeys_flagSetting {b : Bool} : (∀ s ∈ flagSetting name b, s.Obeys L) ↔ True := by
  cases b <;> simp [flagSetting, Setting.Obeys]

theorem obeys_stringSetting {s : Option StringLit} :
    (∀ t ∈ stringSetting name s, t.Obeys L) ↔ ∀ x ∈ s, x.Obeys L := forall_settingOf

theorem obeys_stringsSetting {l : Option StringList} :
    (∀ t ∈ stringsSetting name l, t.Obeys L) ↔ ∀ x ∈ l, x.Obeys L := forall_settingOf

theorem obeys_numberSetting {n : Option NumberLit} :
    (∀ t ∈ numberSetting name n, t.Obeys L) ↔ ∀ x ∈ n, x.Obeys L := forall_settingOf

theorem obeys_importanceSetting {i : Option Importance} :
    (∀ t ∈ importanceSetting name i, t.Obeys L) ↔ True := by
  rw [importanceSetting, forall_settingOf]
  exact iff_true_intro fun _ _ => trivial

theorem obeys_partSetting {p : Option AddressPart} : (∀ t ∈ partSetting p, t.Obeys L) ↔ True := by
  rw [partSetting, forall_settingOf]
  exact iff_true_intro fun _ _ => trivial

theorem obeys_aboveSetting {above : Bool} : (∀ t ∈ aboveSetting above, t.Obeys L) ↔ True := by
  simp [aboveSetting, Setting.Obeys]

theorem obeys_optionSettings {o : MatchOptions} :
    (∀ s ∈ optionSettings o, s.Obeys L) ↔ ∀ s ∈ o.comparator, s.Obeys L := by
  rw [optionSettings, List.forall_mem_append, List.forall_mem_append, obeys_stringSetting,
    matchTypeSetting, relationalSetting, forall_settingOf, forall_settingOf]
  exact and_iff_right ⟨fun _ _ => trivial, fun _ _ => trivial⟩

theorem obeys_transformSetting {t : Option BodyTransform} :
    (∀ s ∈ transformSetting t, s.Obeys L) ↔ ∀ b ∈ t, b.Obeys L := by
  rw [transformSetting, forall_settingOf]
  refine forall_congr' fun b => forall_congr' fun _ => ?_
  cases b <;> exact Iff.rfl

theorem obeys_modifiers {ms : List SetModifier} :
    (∀ s ∈ ms.map (fun m => (⟨m.word, .none⟩ : Setting)), s.Obeys L) ↔ True := by
  simp [Setting.Obeys]

theorem clause_obeys {settings : List Setting} {ps : List Positional} {ordered : Bool} :
    (⟨settings, ps, ordered⟩ : Clause).Obeys L
      ↔ (∀ s ∈ settings, s.Obeys L) ∧ ∀ p ∈ ps, p.Obeys L :=
  ⟨fun h => ⟨h.1, h.2⟩, fun h => ⟨h.1, h.2⟩⟩

theorem Test.depth_clause {t : Test} {k : TestKeyword} {c : Clause} (h : t.clause? = some (k, c)) :
    t.depth = 1 := by
  cases t <;> first | rfl | cases h

theorem Command.depth_clause {c : Command} {k : CommandKeyword} {cl : Clause}
    (h : c.clause? = some (k, cl)) : c.depth = 0 := by
  cases c <;> first | rfl | cases h

/-- A test of fixed shape obeys a law if its clause does and its tags may stand together. -/
theorem Test.obeys_iff {t : Test} {k : TestKeyword} {c : Clause} (h : t.clause? = some (k, c)) :
    t.Obeys L ↔ c.Obeys L ∧ L.location t.location ∧ t.Obeys L.together := by
  cases t with
  | negation | allOf | anyOf | generic => cases h
  | hasFlag t =>
    obtain ⟨options, _ | names, flags, l⟩ := t <;> cases h <;>
      simp [Test.Obeys, HasFlagTest.Obeys, MatchOptions.Obeys, clause_obeys, obeys_optionSettings,
        Positional.Obeys, Test.location, and_assoc, and_left_comm, and_comm]
  | _ =>
    cases h
    simp [Test.Obeys, AddressTest.Obeys, HeaderTest.Obeys, EnvelopeTest.Obeys, SizeTest.Obeys,
      BodyTest.Obeys, DateTest.Obeys, CurrentDateTest.Obeys, StringTest.Obeys, DuplicateTest.Obeys,
      MatchOptions.Obeys, clause_obeys, List.forall_mem_append, -List.mem_append,
      obeys_flagSetting, obeys_stringSetting, obeys_numberSetting, obeys_partSetting,
      obeys_aboveSetting, obeys_optionSettings, obeys_transformSetting, Positional.Obeys,
      Test.location, and_assoc, and_left_comm, and_comm]

theorem Command.obeys_iff {c : Command} {k : CommandKeyword} {cl : Clause}
    (h : c.clause? = some (k, cl)) :
    c.Obeys L ↔ cl.Obeys L ∧ L.location c.location ∧ c.Obeys L.together := by
  cases c with
  | ifTest | generic | genericBlock => cases h
  | flag c =>
    obtain ⟨action, _ | name, flags, l⟩ := c <;> cases h <;>
      simp [Command.Obeys, FlagCommand.Obeys, clause_obeys, Positional.Obeys, Command.location,
        and_assoc, and_left_comm, and_comm]
  | _ =>
    cases h
    simp [Command.Obeys, RequireCommand.Obeys, KeepCommand.Obeys, FileIntoCommand.Obeys,
      RedirectCommand.Obeys, RejectCommand.Obeys, SetCommand.Obeys, VacationCommand.Obeys,
      NotifyCommand.Obeys, clause_obeys, List.forall_mem_append, -List.mem_append, -List.mem_map,
      obeys_flagSetting, obeys_stringSetting, obeys_stringsSetting, obeys_numberSetting,
      obeys_importanceSetting, obeys_modifiers, Positional.Obeys, Command.location, and_assoc,
      and_left_comm, and_comm]

end Clauses

/-- The law asks no more than what holds of every phrase of tokens of sort `S`. -/
structure TreeLaw.Grammatical (S : Token → Prop) (L : TreeLaw) : Prop where
  location : L.location none
  number : ∀ {value q}, S (.number value q) → L.number ⟨value, q, none⟩
  strings : ∀ {values}, values ≠ [] → L.strings values
  capabilities : ∀ {names}, names ≠ [] → L.capabilities names
  tests : ∀ {ts}, ts ≠ [] → L.tests ts
  testName : ∀ {name}, S (.word name) → TestKeyword.ofWord? name = none → L.testName name
  commandName : ∀ {name}, S (.word name) → CommandKeyword.ofWord? name = none → L.commandName name
  tagName : ∀ {name}, S (.tag name) → L.tagName name
  arguments : ∀ {as}, TreeLaw.readable.arguments as → L.arguments as
  options : ∀ {o}, TreeLaw.readable.options o → L.options o
  vacation : ∀ {c}, TreeLaw.readable.vacation c → L.vacation c
  date : ∀ {t}, TreeLaw.readable.date t → L.date t
  duplicate : ∀ {t}, TreeLaw.readable.duplicate t → L.duplicate t

section Phrases

variable {S : Token → Prop} {L : TreeLaw} {ts : List Token} {α : Type}

theorem TreeLaw.Grammatical.test (h : L.Grammatical S) {t : Test} {k : TestKeyword} {c : Clause}
    (hc : t.clause? = some (k, c)) (hx : t.Obeys .readable) : t.Obeys L.together := by
  have ho {o : MatchOptions} (ho : o.Obeys .readable) : o.Obeys L.together :=
    ⟨h.options ho.1, fun _ _ => trivial⟩
  cases t with
  | negation | allOf | anyOf | generic => cases hc
  | date t =>
    obtain ⟨hd, -, hx, -⟩ := hx
    exact ⟨h.date hd, by simp, ho hx, by simp⟩
  | duplicate t => exact ⟨h.duplicate hx.1, by simp⟩
  | body t => exact ⟨by simp, ho hx.2.1, by simp⟩
  | currentDate t => exact ⟨by simp, ho hx.2.1, by simp⟩
  | size t => exact ⟨by simp, by simp⟩
  | headerExists | ihave => exact ⟨by simp, by simp⟩
  | always | never => trivial
  | _ => exact ⟨ho hx.1, by simp⟩

theorem TreeLaw.Grammatical.command (h : L.Grammatical S) {c : Command} {k : CommandKeyword}
    {cl : Clause} (hc : c.clause? = some (k, cl)) (hx : c.Obeys .readable) :
    c.Obeys L.together := by
  cases c with
  | ifTest | generic | genericBlock => cases hc
  | vacation c => exact ⟨h.vacation hx.1, by simp⟩
  | stop | discard => trivial
  | require | keep | fileInto | redirect | reject | setVariable | flag | notify =>
    simp [Command.Obeys, RequireCommand.Obeys, KeepCommand.Obeys, FileIntoCommand.Obeys,
      RedirectCommand.Obeys, RejectCommand.Obeys, SetCommand.Obeys, FlagCommand.Obeys,
      NotifyCommand.Obeys]

theorem stringPhrase_obeys (h : L.Grammatical S) {s : StringLit} (hs : StringPhrase ts s) :
    s.Obeys L := by
  cases hs
  exact h.location

theorem numberPhrase_obeys (h : L.Grammatical S) {n : NumberLit} (hts : ∀ t ∈ ts, S t)
    (hn : NumberPhrase ts n) : n.Obeys L := by
  cases hn
  exact ⟨h.number (hts _ List.mem_cons_self), h.location⟩

theorem bracketPhrase_obeys (h : L.Grammatical S) {l : StringList} (hl : BracketPhrase ts l) :
    l.Obeys L := by
  obtain ⟨hs⟩ := hl
  refine ⟨h.strings hs.ne_nil, h.location, ?_⟩
  induction hs with
  | single hs => simpa using stringPhrase_obeys h hs
  | cons hs _ ih => exact List.forall_mem_cons.2 ⟨stringPhrase_obeys h hs, ih⟩

theorem listPhrase_obeys (h : L.Grammatical S) {l : StringList} (hl : ListPhrase ts l) :
    l.Obeys L := by
  cases hl with
  | single hs =>
    exact ⟨h.strings (by simp), h.location, by simpa using stringPhrase_obeys h hs⟩
  | brackets hl => exact bracketPhrase_obeys h hl

theorem forall_of_sequence {G : List Token → α → Prop} {P : α → Prop} {as : List α}
    (hG : ∀ ts a, (∀ t ∈ ts, S t) → G ts a → P a) (hts : ∀ t ∈ ts, S t)
    (h : Sequence G ts as) : ∀ a ∈ as, P a := by
  induction h with
  | nil => simp
  | cons ha _ ih =>
    rw [List.forall_mem_append] at hts
    exact List.forall_mem_cons.2 ⟨hG _ _ hts.1 ha, ih hts.2⟩

theorem forall_of_separated {G : List Token → α → Prop} {P : α → Prop} {as : List α}
    (hG : ∀ ts a, (∀ t ∈ ts, S t) → G ts a → P a) (hts : ∀ t ∈ ts, S t)
    (h : Separated G ts as) : ∀ a ∈ as, P a := by
  induction h with
  | single ha => simpa using hG _ _ hts ha
  | cons ha _ ih =>
    rw [List.forall_mem_append, List.forall_mem_cons] at hts
    exact List.forall_mem_cons.2 ⟨hG _ _ hts.1 ha, ih hts.2.2⟩

theorem settingPhrase_obeys (h : L.Grammatical S) {s : Setting} (hts : ∀ t ∈ ts, S t)
    (hs : SettingPhrase ts s) : s.Obeys L := by
  obtain ⟨name, value⟩ := s
  obtain ⟨hv⟩ := hs
  rw [List.forall_mem_cons] at hts
  cases hv with
  | string hs => exact stringPhrase_obeys h hs
  | strings hl => exact listPhrase_obeys h hl
  | number hn => exact numberPhrase_obeys h hts.2 hn
  | none | operator | importance => trivial

theorem positionalPhrase_obeys (h : L.Grammatical S) {p : Positional} (hts : ∀ t ∈ ts, S t)
    (hp : PositionalPhrase ts p) : p.Obeys L := by
  cases hp with
  | string hs => exact stringPhrase_obeys h hs
  | strings hl => exact listPhrase_obeys h hl
  | number hn => exact numberPhrase_obeys h hts hn
  | texts hl =>
    refine h.capabilities ?_
    cases hl with
    | single => simp
    | brackets hb =>
      obtain ⟨hs⟩ := hb
      simpa using hs.ne_nil

theorem clausePhrase_obeys (h : L.Grammatical S) {c : Clause} (hts : ∀ t ∈ ts, S t)
    (hc : ClausePhrase ts c) : c.Obeys L := by
  obtain ⟨ha, hs, hp⟩ := hc
  rw [List.forall_mem_append] at hts
  refine ⟨fun s hm => ?_, forall_of_sequence (fun _ _ => positionalPhrase_obeys h) hts.2 hp⟩
  exact forall_of_sequence (P := fun s => s.Obeys L) (fun _ _ => settingPhrase_obeys h) hts.1 hs s
    (ha.mem_iff.2 hm)

theorem plainArgument_obeys (h : L.Grammatical S) {a : Argument} (hts : ∀ t ∈ ts, S t)
    (ha : PlainArgument ts a) : a.Obeys L ∧ a.depth = 0 := by
  cases ha with
  | tag name => exact ⟨⟨h.tagName (hts _ List.mem_cons_self), h.location⟩, rfl⟩
  | number hn => exact ⟨numberPhrase_obeys h hts hn, rfl⟩
  | string hs => exact ⟨stringPhrase_obeys h hs, rfl⟩
  | strings hl => exact ⟨bracketPhrase_obeys h hl, rfl⟩

section Inner

variable {inner : List Token → Test → Prop} {n : Nat}

theorem testsPhrase_obeys
    (hi : ∀ ts t, (∀ tok ∈ ts, S tok) → inner ts t → t.Obeys L ∧ t.depth ≤ n)
    {tests : List Test} (hts : ∀ t ∈ ts, S t) (hs : Separated inner ts tests) :
    TestsObey L tests ∧ testsDepth tests ≤ n := by
  have hall := forall_of_separated hi hts hs
  exact ⟨testsObey_iff.2 fun t ht => (hall t ht).1, testsDepth_le.2 fun t ht => (hall t ht).2⟩

theorem argumentsPhrase_obeys (h : L.Grammatical S)
    (hi : ∀ ts t, (∀ tok ∈ ts, S tok) → inner ts t → t.Obeys L ∧ t.depth ≤ n)
    {as : List Argument} (hts : ∀ t ∈ ts, S t) (ha : ArgumentsPhrase inner ts as) :
    ArgumentsObey L as ∧ argumentsDepth as ≤ n ∧ TreeLaw.readable.arguments as := by
  have one {tests : List Test} (hne : tests ≠ []) (ho : TestsObey L tests)
      (hd : testsDepth tests ≤ n) :
      ArgumentsObey L [.tests tests none] ∧ argumentsDepth [.tests tests none] ≤ n
        ∧ TreeLaw.readable.arguments [.tests tests none] := by
    refine ⟨⟨⟨h.tests hne, ho, h.location⟩, trivial⟩, ?_,
      arguments_readable_cons.2 ⟨absurd rfl, arguments_readable_nil⟩⟩
    rw [argumentsDepth, argumentsDepth, Argument.depth]
    omega
  induction ha with
  | nil => exact ⟨trivial, Nat.zero_le n, arguments_readable_nil⟩
  | @cons us vs a as ha _ ih =>
    rw [List.forall_mem_append] at hts
    obtain ⟨has, hd, hl⟩ := ih hts.2
    obtain ⟨hao, had⟩ := plainArgument_obeys h hts.1 ha
    refine ⟨⟨hao, has⟩, by rw [argumentsDepth, had]; omega, ?_⟩
    exact arguments_readable_cons.2 ⟨fun _ => by cases ha <;> rfl, hl⟩
  | test ht =>
    obtain ⟨ho, hd⟩ := hi _ _ hts ht
    exact one (by simp) ⟨ho, trivial⟩ (by rw [testsDepth, testsDepth]; omega)
  | tests hs =>
    simp only [parenthesized, List.cons_append, List.forall_mem_cons, List.forall_mem_append] at hts
    obtain ⟨ho, hd⟩ := testsPhrase_obeys hi hts.2.1 hs
    exact one hs.ne_nil ho hd

theorem testForm_obeys (h : L.Grammatical S)
    (hi : ∀ ts t, (∀ tok ∈ ts, S tok) → inner ts t → t.Obeys L ∧ t.depth ≤ n) {t : Test}
    (hts : ∀ tok ∈ ts, S tok) (ht : TestForm inner ts t) : t.Obeys L ∧ t.depth ≤ n + 1 := by
  cases ht with
  | parens ht =>
    simp only [parenthesized, List.cons_append, List.forall_mem_cons, List.forall_mem_append] at hts
    obtain ⟨ho, hd⟩ := hi _ _ hts.2.1 ht
    exact ⟨ho, by omega⟩
  | clause hc hl hx hp =>
    rw [List.forall_mem_cons] at hts
    have ho := (Test.obeys_iff hc).2
      ⟨clausePhrase_obeys h hts.2 hp, hl ▸ h.location, h.test hc hx⟩
    exact ⟨ho, by rw [Test.depth_clause hc]; omega⟩
  | negation ht =>
    rw [List.forall_mem_cons] at hts
    obtain ⟨ho, hd⟩ := hi _ _ hts.2 ht
    exact ⟨⟨ho, h.location⟩, by rw [Test.depth]; omega⟩
  | allOf hs =>
    simp only [parenthesized, List.cons_append, List.forall_mem_cons, List.forall_mem_append] at hts
    obtain ⟨ho, hd⟩ := testsPhrase_obeys hi hts.2.2.1 hs
    exact ⟨⟨h.tests hs.ne_nil, ho, h.location⟩, by rw [Test.depth]; omega⟩
  | anyOf hs =>
    simp only [parenthesized, List.cons_append, List.forall_mem_cons, List.forall_mem_append] at hts
    obtain ⟨ho, hd⟩ := testsPhrase_obeys hi hts.2.2.1 hs
    exact ⟨⟨h.tests hs.ne_nil, ho, h.location⟩, by rw [Test.depth]; omega⟩
  | generic hn ha =>
    rw [List.forall_mem_cons] at hts
    obtain ⟨ho, hd, hl⟩ := argumentsPhrase_obeys h hi hts.2 ha
    exact ⟨⟨h.testName hts.1 hn, h.arguments hl, ho, h.location⟩, by rw [Test.depth]; omega⟩

end Inner

theorem testPhrase_obeys (h : L.Grammatical S) (n : Nat) :
    ∀ ts t, (∀ tok ∈ ts, S tok) → TestPhrase n ts t → t.Obeys L ∧ t.depth ≤ n := by
  induction n with
  | zero => exact fun _ _ _ ht => ht.elim
  | succ n ih => exact fun _ _ hts ht => testForm_obeys h ih hts ht

section Nested

variable {T : List Token → Test → Prop} {B : List Token → Block → Prop}
variable {C : List Token → Chain → Prop} {n : Nat}

theorem commandForm_obeys (h : L.Grammatical S)
    (ht : ∀ ts t, (∀ tok ∈ ts, S tok) → T ts t → t.Obeys L ∧ t.depth ≤ n)
    (hb : ∀ ts b, (∀ tok ∈ ts, S tok) → B ts b → b.Obeys L ∧ b.depth ≤ n)
    (hch : ∀ ts c, (∀ tok ∈ ts, S tok) → C ts c → c.Obeys L ∧ c.depth ≤ n) {c : Command}
    (hts : ∀ tok ∈ ts, S tok) (hc : CommandForm T B C ts c) : c.Obeys L ∧ c.depth ≤ n := by
  cases hc with
  | clause hc hl hx hp =>
    rw [List.cons_append, List.forall_mem_cons, List.forall_mem_append] at hts
    have ho := (Command.obeys_iff hc).2
      ⟨clausePhrase_obeys h hts.2.1 hp, hl ▸ h.location, h.command hc hx⟩
    exact ⟨ho, by rw [Command.depth_clause hc]; omega⟩
  | ifTest t b c =>
    rw [List.cons_append, List.cons_append, List.forall_mem_cons, List.forall_mem_append,
      List.forall_mem_append] at hts
    obtain ⟨hto, htd⟩ := ht _ _ hts.2.1.1 t
    obtain ⟨hbo, hbd⟩ := hb _ _ hts.2.1.2 b
    obtain ⟨hco, hcd⟩ := hch _ _ hts.2.2 c
    exact ⟨⟨hto, hbo, hco, h.location⟩, by rw [Command.depth]; omega⟩
  | generic hn ha =>
    rw [List.cons_append, List.forall_mem_cons, List.forall_mem_append] at hts
    obtain ⟨ho, hd, hl⟩ := argumentsPhrase_obeys h ht hts.2.1 ha
    exact ⟨⟨h.commandName hts.1 hn, h.arguments hl, ho, h.location⟩, by rw [Command.depth]; omega⟩
  | genericBlock hn ha b =>
    rw [List.cons_append, List.forall_mem_cons, List.forall_mem_append] at hts
    obtain ⟨ho, hd, hl⟩ := argumentsPhrase_obeys h ht hts.2.1 ha
    obtain ⟨hbo, hbd⟩ := hb _ _ hts.2.2 b
    exact ⟨⟨h.commandName hts.1 hn, h.arguments hl, ho, hbo, h.location⟩,
      by rw [Command.depth]; omega⟩

theorem block_chain_obeys (h : L.Grammatical S) (n : Nat) :
    (∀ ts b, (∀ tok ∈ ts, S tok) → BlockPhrase n ts b → b.Obeys L ∧ b.depth ≤ n)
      ∧ ∀ ts c, (∀ tok ∈ ts, S tok) → ChainPhrase n ts c → c.Obeys L ∧ c.depth ≤ n := by
  induction n with
  | zero =>
    constructor
    · exact fun _ _ _ hb => hb.elim
    · rintro _ _ - ⟨rfl, rfl⟩
      exact ⟨trivial, Nat.le_refl 0⟩
  | succ n ih =>
    obtain ⟨hb, hch⟩ := ih
    have ht := testPhrase_obeys h n
    constructor
    · rintro _ _ hts ⟨hs⟩
      simp only [braced, List.cons_append, List.forall_mem_cons, List.forall_mem_append] at hts
      have hall := forall_of_sequence (P := fun c => c.Obeys L ∧ c.depth ≤ n)
        (fun _ _ => commandForm_obeys h ht hb hch) hts.2.1 hs
      refine ⟨⟨commandsObey_iff.2 fun c hc => (hall c hc).1, h.location⟩, ?_⟩
      rw [Block.depth]
      exact Nat.succ_le_succ (commandsDepth_le.2 fun c hc => (hall c hc).2)
    · rintro _ _ hts (_ | ⟨t, b, c⟩ | b)
      · exact ⟨trivial, Nat.zero_le _⟩
      · rw [List.cons_append, List.cons_append, List.forall_mem_cons, List.forall_mem_append,
          List.forall_mem_append] at hts
        obtain ⟨hto, htd⟩ := ht _ _ hts.2.1.1 t
        obtain ⟨hbo, hbd⟩ := hb _ _ hts.2.1.2 b
        obtain ⟨hco, hcd⟩ := hch _ _ hts.2.2 c
        exact ⟨⟨hto, hbo, hco, h.location⟩, by rw [Chain.depth]; omega⟩
      · rw [List.forall_mem_cons] at hts
        obtain ⟨hbo, hbd⟩ := hb _ _ hts.2 b
        exact ⟨⟨hbo, h.location⟩, by rw [Chain.depth]; omega⟩

theorem scriptPhrase_obeys (h : L.Grammatical S) {s : Script} (hts : ∀ tok ∈ ts, S tok)
    (hs : ScriptPhrase n ts s) : s.Obeys L ∧ s.depth ≤ n := by
  obtain ⟨hs⟩ := hs
  have hall := forall_of_sequence (P := fun c => c.Obeys L ∧ c.depth ≤ n)
    (fun _ _ => commandForm_obeys h (testPhrase_obeys h n) (block_chain_obeys h n).1
      (block_chain_obeys h n).2) hts hs
  exact ⟨⟨commandsObey_iff.2 fun c hc => (hall c hc).1, h.location⟩,
    commandsDepth_le.2 fun c hc => (hall c hc).2⟩

end Nested

end Phrases

end MailSieve
