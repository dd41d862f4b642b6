import MailSieve.Grammar.Test
import MailSieve.Script.Check

/-! Laws that hold everywhere in a tree.
A law says what is asked of each kind of place: a list of strings, the name of a generic node, the
options of a match, and so on. A tree obeys a law if every place in it does. The laws below are the
checks of hand-built nodes, what the parser asks beyond them of tags and test lists, the absence of
locations, and the numbers that their quantifiers divide. -/

namespace MailSieve

structure TreeLaw where
  location : Option Location → Prop := fun _ => True
  number : NumberLit → Prop := fun _ => True
  strings : List StringLit → Prop := fun _ => True
  capabilities : List String → Prop := fun _ => True
  tests : List Test → Prop := fun _ => True
  testName : String → Prop := fun _ => True
  commandName : String → Prop := fun _ => True
  tagName : String → Prop := fun _ => True
  arguments : List Argument → Prop := fun _ => True
  options : MatchOptions → Prop := fun _ => True
  vacation : VacationCommand → Prop := fun _ => True
  date : DateTest → Prop := fun _ => True
  duplicate : DuplicateTest → Prop := fun _ => True

variable (L : TreeLaw)

def StringLit.Obeys (s : StringLit) : Prop := L.location s.location

def StringList.Obeys (l : StringList) : Prop :=
  L.strings l.values ∧ L.location l.location ∧ ∀ s ∈ l.values, s.Obeys L

def NumberLit.Obeys (n : NumberLit) : Prop := L.number n ∧ L.location n.location

def MatchOptions.Obeys (o : MatchOptions) : Prop :=
  L.options o ∧ ∀ s ∈ o.comparator, s.Obeys L

def BodyTransform.Obeys : BodyTransform → Prop
  | raw | text => True
  | content types => types.Obeys L

def AddressTest.Obeys (t : AddressTest) : Prop :=
  t.options.Obeys L ∧ t.headers.Obeys L ∧ t.keys.Obeys L ∧ L.location t.location

def EnvelopeTest.Obeys (t : EnvelopeTest) : Prop :=
  t.options.Obeys L ∧ t.envelopeParts.Obeys L ∧ t.keys.Obeys L ∧ L.location t.location

def HeaderTest.Obeys (t : HeaderTest) : Prop :=
  t.options.Obeys L ∧ t.headers.Obeys L ∧ t.keys.Obeys L ∧ L.location t.location

def SizeTest.Obeys (t : SizeTest) : Prop := t.size.Obeys L ∧ L.location t.location

def BodyTest.Obeys (t : BodyTest) : Prop :=
  (∀ b ∈ t.transform, b.Obeys L) ∧ t.options.Obeys L ∧ t.keys.Obeys L ∧ L.location t.location

def DateTest.Obeys (t : DateTest) : Prop :=
  L.date t ∧ (∀ s ∈ t.zone, s.Obeys L) ∧ t.options.Obeys L ∧ t.header.Obeys L ∧ t.datePart.Obeys L
    ∧ t.keys.Obeys L ∧ L.location t.location

def CurrentDateTest.Obeys (t : CurrentDateTest) : Prop :=
  (∀ s ∈ t.zone, s.Obeys L) ∧ t.options.Obeys L ∧ t.datePart.Obeys L ∧ t.keys.Obeys L
    ∧ L.location t.location

def HasFlagTest.Obeys (t : HasFlagTest) : Prop :=
  t.options.Obeys L ∧ (∀ l ∈ t.variableNames, l.Obeys L) ∧ t.flags.Obeys L
    ∧ L.location t.location

def StringTest.Obeys (t : StringTest) : Prop :=
  t.options.Obeys L ∧ t.source.Obeys L ∧ t.keys.Obeys L ∧ L.location t.location

def DuplicateTest.Obeys (t : DuplicateTest) : Prop :=
  L.duplicate t ∧ (∀ s ∈ t.handle, s.Obeys L) ∧ (∀ s ∈ t.header, s.Obeys L)
    ∧ (∀ s ∈ t.uniqueId, s.Obeys L) ∧ (∀ n ∈ t.seconds, n.Obeys L) ∧ L.location t.location

mutual

def Test.Obeys : Test → Prop
  | .always l => L.location l
  | .never l => L.location l
  | .negation t l => t.Obeys ∧ L.location l
  | .allOf ts l => L.tests ts ∧ TestsObey ts ∧ L.location l
  | .anyOf ts l => L.tests ts ∧ TestsObey ts ∧ L.location l
  | .address t => AddressTest.Obeys L t
  | .header t => HeaderTest.Obeys L t
  | .envelope t => EnvelopeTest.Obeys L t
  | .headerExists headers l => StringList.Obeys L headers ∧ L.location l
  | .size t => SizeTest.Obeys L t
  | .body t => BodyTest.Obeys L t
  | .date t => DateTest.Obeys L t
  | .currentDate t => CurrentDateTest.Obeys L t
  | .hasFlag t => HasFlagTest.Obeys L t
  | .string t => StringTest.Obeys L t
  | .ihave capabilities l => StringList.Obeys L capabilities ∧ L.location l
  | .duplicate t => DuplicateTest.Obeys L t
  | .generic name arguments l =>
    L.testName name ∧ L.arguments arguments ∧ ArgumentsObey arguments ∧ L.location l

def TestsObey : List Test → Prop
  | [] => True
  | t :: ts => t.Obeys ∧ TestsObey ts

def Argument.Obeys : Argument → Prop
  | .tag name l => L.tagName name ∧ L.location l
  | .number n => NumberLit.Obeys L n
  | .string s => StringLit.Obeys L s
  | .strings l => StringList.Obeys L l
  | .tests ts l => L.tests ts ∧ TestsObey ts ∧ L.location l

def ArgumentsObey : List Argument → Prop
  | [] => True
  | a :: as => a.Obeys ∧ ArgumentsObey as

end

def RequireCommand.Obeys (c : RequireCommand) : Prop :=
  L.capabilities c.capabilities ∧ L.location c.location

def KeepCommand.Obeys (c : KeepCommand) : Prop :=
  (∀ l ∈ c.flags, l.Obeys L) ∧ L.location c.location

def FileIntoCommand.Obeys (c : FileIntoCommand) : Prop :=
  c.mailbox.Obeys L ∧ (∀ l ∈ c.flags, l.Obeys L) ∧ L.location c.location

def RedirectCommand.Obeys (c : RedirectCommand) : Prop :=
  c.address.Obeys L ∧ L.location c.location

def RejectCommand.Obeys (c : RejectCommand) : Prop := c.reason.Obeys L ∧ L.location c.location

def SetCommand.Obeys (c : SetCommand) : Prop :=
  c.name.Obeys L ∧ c.value.Obeys L ∧ L.location c.location

def VacationCommand.Obeys (c : VacationCommand) : Prop :=
  L.vacation c ∧ c.reason.Obeys L ∧ (∀ n ∈ c.days, n.Obeys L) ∧ (∀ n ∈ c.seconds, n.Obeys L)
    ∧ (∀ s ∈ c.subject, s.Obeys L) ∧ (∀ s ∈ c.sender, s.Obeys L)
    ∧ (∀ l ∈ c.addresses, l.Obeys L) ∧ (∀ s ∈ c.handle, s.Obeys L) ∧ L.location c.location

def FlagCommand.Obeys (c : FlagCommand) : Prop :=
  (∀ s ∈ c.variableName, s.Obeys L) ∧ c.flags.Obeys L ∧ L.location c.location

def NotifyCommand.Obeys (c : NotifyCommand) : Prop :=
  c.method.Obeys L ∧ (∀ s ∈ c.sender, s.Obeys L) ∧ (∀ l ∈ c.options, l.Obeys L)
    ∧ (∀ s ∈ c.message, s.Obeys L) ∧ L.location c.location

mutual

def Command.Obeys : Command → Prop
  | .require c => RequireCommand.Obeys L c
  | .ifTest t b c l => Test.Obeys L t ∧ b.Obeys ∧ c.Obeys ∧ L.location l
  | .stop l => L.location l
  | .keep c => KeepCommand.Obeys L c
  | .fileInto c => FileIntoCommand.Obeys L c
  | .redirect c => RedirectCommand.Obeys L c
  | .discard l => L.location l
  | .reject c => RejectCommand.Obeys L c
  | .setVariable c => SetCommand.Obeys L c
  | .vacation c => VacationCommand.Obeys L c
  | .flag c => FlagCommand.Obeys L c
  | .notify c => NotifyCommand.Obeys L c
  | .generic name arguments l =>
    L.commandName name ∧ L.arguments arguments ∧ ArgumentsObey L arguments ∧ L.location l
  | .genericBlock name arguments b l =>
    L.commandName name ∧ L.arguments arguments ∧ ArgumentsObey L arguments ∧ b.Obeys
      ∧ L.location l

def CommandsObey : List Command → Prop
  | [] => True
  | c :: cs => c.Obeys ∧ CommandsObey cs

def Block.Obeys : Block → Prop
  | .mk commands l => CommandsObey commands ∧ L.location l

def Chain.Obeys : Chain → Prop
  | .done => True
  | .elsif t b c l => Test.Obeys L t ∧ b.Obeys ∧ c.Obeys ∧ L.location l
  | .otherwise b l => b.Obeys ∧ L.location l

end

def Script.Obeys (s : Script) : Prop := CommandsObey L s.commands ∧ L.location s.location

variable {L}

theorem testsObey_iff {ts : List Test} : TestsObey L ts ↔ ∀ t ∈ ts, t.Obeys L := by
  induction ts with
  | nil => simp [TestsObey]
  | cons t ts ih => rw [TestsObey, ih, List.forall_mem_cons]

theorem argumentsObey_iff {as : List Argument} : ArgumentsObey L as ↔ ∀ a ∈ as, a.Obeys L := by
  induction as with
  | nil => simp [ArgumentsObey]
  | cons a as ih => rw [ArgumentsObey, ih, List.forall_mem_cons]

theorem commandsObey_iff {cs : List Command} : CommandsObey L cs ↔ ∀ c ∈ cs, c.Obeys L := by
  induction cs with
  | nil => simp [CommandsObey]
  | cons c cs ih => rw [CommandsObey, ih, List.forall_mem_cons]

namespace TreeLaw

/-- The checks that hand-built nodes and nodes out of JSON must pass. -/
def checked : TreeLaw where
  strings values := values ≠ []
  capabilities names := names ≠ []
  tests ts := ts ≠ []
  testName name := isIdentifier name = true ∧ TestKeyword.ofWord? name = none
  commandName name := isIdentifier name = true ∧ CommandKeyword.ofWord? name = none
  tagName name := isIdentifier name = true

/-- Tags that exclude each other do not stand together, and tests stand last among their
arguments. -/
def readable : TreeLaw where
  arguments as := ∀ a ∈ as.dropLast, Parse.isTests a = false
  options o := ¬ (o.matchType.isSome ∧ o.relational.isSome)
  vacation c := ¬ (c.days.isSome ∧ c.seconds.isSome)
  date t := ¬ (t.zone.isSome ∧ t.originalZone)
  duplicate t := ¬ (t.header.isSome ∧ t.uniqueId.isSome)

def bare : TreeLaw where
  location l := l = none

/-- A quantifier stands only on a number that it divides. -/
def divided : TreeLaw where
  number n := ∀ q ∈ n.quantifier, q.multiplier ∣ n.value.toNat

end TreeLaw

section Readable

@[simp] theorem stringLit_readable (s : StringLit) : s.Obeys .readable := trivial

@[simp] theorem stringList_readable (l : StringList) : l.Obeys .readable :=
  ⟨trivial, trivial, fun _ _ => trivial⟩

@[simp] theorem numberLit_readable (n : NumberLit) : n.Obeys .readable := ⟨trivial, trivial⟩

@[simp] theorem bodyTransform_readable (b : BodyTransform) : b.Obeys .readable := by
  cases b <;> simp [BodyTransform.Obeys]

@[simp] theorem location_readable (l : Option Location) : TreeLaw.readable.location l := trivial

@[simp] theorem capabilities_readable (names : List String) :
    TreeLaw.readable.capabilities names := trivial

theorem arguments_readable_nil : TreeLaw.readable.arguments [] := by simp [TreeLaw.readable]

theorem arguments_readable_cons {a : Argument} {as : List Argument} :
    TreeLaw.readable.arguments (a :: as)
      ↔ (as ≠ [] → Parse.isTests a = false) ∧ TreeLaw.readable.arguments as := by
  cases as with
  | nil => simp [TreeLaw.readable]
  | cons b bs =>
    change (∀ x ∈ (a :: b :: bs).dropLast, Parse.isTests x = false) ↔ _
    rw [List.dropLast_cons_cons, List.forall_mem_cons, forall_prop_of_true (List.cons_ne_nil b bs)]
    rfl

theorem options_readable (m : MatchOptions) :
    m.Obeys .readable ↔ ¬ (m.matchType.isSome ∧ m.relational.isSome) :=
  ⟨fun h => h.1, fun h => ⟨h, fun _ _ => trivial⟩⟩

theorem AddressTest.obeys_readable (t : AddressTest) :
    t.Obeys .readable ↔ ¬ (t.options.matchType.isSome ∧ t.options.relational.isSome) := by
  simp [AddressTest.Obeys, options_readable]

theorem EnvelopeTest.obeys_readable (t : EnvelopeTest) :
    t.Obeys .readable ↔ ¬ (t.options.matchType.isSome ∧ t.options.relational.isSome) := by
  simp [EnvelopeTest.Obeys, options_readable]

theorem HeaderTest.obeys_readable (t : HeaderTest) :
    t.Obeys .readable ↔ ¬ (t.options.matchType.isSome ∧ t.options.relational.isSome) := by
  simp [HeaderTest.Obeys, options_readable]

theorem BodyTest.obeys_readable (t : BodyTest) :
    t.Obeys .readable ↔ ¬ (t.options.matchType.isSome ∧ t.options.relational.isSome) := by
  simp [BodyTest.Obeys, options_readable]

theorem DateTest.obeys_readable (t : DateTest) :
    t.Obeys .readable ↔ ¬ (t.zone.isSome ∧ t.originalZone)
      ∧ ¬ (t.options.matchType.isSome ∧ t.options.relational.isSome) := by
  simp only [DateTest.Obeys, options_readable, stringLit_readable, stringList_readable,
    location_readable, implies_true, and_true, true_and]
  rfl

theorem CurrentDateTest.obeys_readable (t : CurrentDateTest) :
    t.Obeys .readable ↔ ¬ (t.options.matchType.isSome ∧ t.options.relational.isSome) := by
  simp [CurrentDateTest.Obeys, options_readable]

theorem HasFlagTest.obeys_readable (t : HasFlagTest) :
    t.Obeys .readable ↔ ¬ (t.options.matchType.isSome ∧ t.options.relational.isSome) := by
  simp [HasFlagTest.Obeys, options_readable]

theorem StringTest.obeys_readable (t : StringTest) :
    t.Obeys .readable ↔ ¬ (t.options.matchType.isSome ∧ t.options.relational.isSome) := by
  simp [StringTest.Obeys, options_readable]

theorem DuplicateTest.obeys_readable (t : DuplicateTest) :
    t.Obeys .readable ↔ ¬ (t.header.isSome ∧ t.uniqueId.isSome) := by
  simp only [DuplicateTest.Obeys, stringLit_readable, numberLit_readable, location_readable,
    implies_true, and_true]
  rfl

theorem VacationCommand.obeys_readable (c : VacationCommand) :
    c.Obeys .readable ↔ ¬ (c.days.isSome ∧ c.seconds.isSome) := by
  simp only [VacationCommand.Obeys, stringLit_readable, stringList_readable, numberLit_readable,
    location_readable, implies_true, and_true]
  rfl

end Readable

end MailSieve
