import MailSieve.Interchange.Decode
import MailSieve.Proofs.Interchange.Checked
import MailSieve.Proofs.Json.Finds

/-! Trees that are read back from their JSON.
What a tree is encoded as is decoded if and only if the tree passes the checks, and then as that
tree; it is plain if the positions fit in 64 bits. Every lemma follows one record: its members stand
in the order of its parts, and what is asked of them is what is asked of the parts. -/

namespace MailSieve

def Position.Fits (p : Position) : Prop :=
  p.offset < UInt64.size ∧ p.line < UInt64.size ∧ p.column < UInt64.size

namespace TreeLaw

/-- Every position that is recorded fits. -/
def fitting : TreeLaw where
  location l := ∀ x ∈ l, x.start.Fits ∧ x.stop.Fits

section Unasked

variable (c : VacationCommand) (d : DateTest) (u : DuplicateTest) (n : NumberLit) (o : MatchOptions)
  (as : List Argument) (ts : List Test) (ss : List StringLit) (name : String) (names : List String)

@[simp] theorem checked_location (l : Option Location) : checked.location l := trivial

@[simp] theorem checked_number : checked.number n := trivial

@[simp] theorem checked_arguments : checked.arguments as := trivial

@[simp] theorem checked_options : checked.options o := trivial

@[simp] theorem checked_vacation : checked.vacation c := trivial

@[simp] theorem checked_date : checked.date d := trivial

@[simp] theorem checked_duplicate : checked.duplicate u := trivial

@[simp] theorem fitting_number : fitting.number n := trivial

@[simp] theorem fitting_strings : fitting.strings ss := trivial

@[simp] theorem fitting_capabilities : fitting.capabilities names := trivial

@[simp] theorem fitting_tests : fitting.tests ts := trivial

@[simp] theorem fitting_testName : fitting.testName name := trivial

@[simp] theorem fitting_commandName : fitting.commandName name := trivial

@[simp] theorem fitting_tagName : fitting.tagName name := trivial

@[simp] theorem fitting_arguments : fitting.arguments as := trivial

@[simp] theorem fitting_options : fitting.options o := trivial

@[simp] theorem fitting_vacation : fitting.vacation c := trivial

@[simp] theorem fitting_date : fitting.date d := trivial

@[simp] theorem fitting_duplicate : fitting.duplicate u := trivial

end Unasked

end TreeLaw

@[simp] theorem stringLit_checked (s : StringLit) : s.Obeys .checked := trivial

@[simp] theorem numberLit_checked (n : NumberLit) : n.Obeys .checked := ⟨trivial, trivial⟩

namespace Interchange

open Json Json.Record

section Leaves

theorem position_denoted (p : Position) :
    Denotes decodePosition (encodePosition p) True p.Fits p :=
  (Finds.field (denotes_natural p.offset)).map Position.mk
    |>.seq (.field (denotes_natural p.line))
    |>.seq (.field (denotes_natural p.column))
    |>.iff (by simp) (by simp [Position.Fits, and_assoc])
    |>.decode (by decide)

theorem location_denoted (l : Location) :
    Denotes decodeLocation (encodeLocation l) True (l.start.Fits ∧ l.stop.Fits) l :=
  (Finds.field (position_denoted l.start)).map Location.mk
    |>.seq (.field (position_denoted l.stop))
    |>.iff (by simp) Iff.rfl
    |>.decode (by decide)

theorem locationField_finds (l : Option Location) :
    locationField.Finds ["location"] True (TreeLaw.fitting.location l) (locationMember l) l :=
  (Finds.optional fun x _ => ⟨location_denoted x, nofun⟩).iff (by simp) Iff.rfl

theorem stringRecord_finds (s : StringLit) :
    stringRecord.Finds ["value", "multiline", "location"] True (s.Obeys .fitting)
      (stringMembers s) s :=
  (Finds.field (denotes_string s.value)).map StringLit.mk
    |>.seq (.default (denotes_bool s.multiline))
    |>.seq (locationField_finds s.location)
    |>.iff (by simp) (by simp [StringLit.Obeys])

theorem string_denoted (s : StringLit) :
    Denotes decodeStringLit (encodeString s) True (s.Obeys .fitting) s :=
  (stringRecord_finds s).decode (by decide)

theorem stringListRecord_finds (l : StringList) :
    stringListRecord.Finds ["values", "location"] True (l.Obeys .fitting)
      (stringListMembers l) l :=
  (Finds.field (denotes_list fun s _ => string_denoted s)).map StringList.mk
    |>.seq (locationField_finds l.location)
    |>.iff (by simp) (by simp [StringList.Obeys, and_comm])

theorem stringList_denoted (l : StringList) :
    Denotes decodeStringList (encodeStringList l) (l.Obeys .checked) (l.Obeys .fitting) l :=
  (denotes_checked ((stringListRecord_finds l).decode (by decide)) fun _ => checkStringList_eq_ok)
    |>.iff (by simp) Iff.rfl

theorem numberRecord_finds (n : NumberLit) :
    numberRecord.Finds ["value", "quantifier", "location"] True (n.Obeys .fitting)
      (numberMembers n) n :=
  (Finds.field (denotes_word n.value)).map NumberLit.mk
    |>.seq (.optional fun q _ => ⟨denotes_name (by cases q <;> rfl), nofun⟩)
    |>.seq (locationField_finds n.location)
    |>.iff (by simp) (by simp [NumberLit.Obeys])

theorem number_denoted (n : NumberLit) :
    Denotes decodeNumber (encodeNumber n) True (n.Obeys .fitting) n :=
  (numberRecord_finds n).decode (by decide)

theorem relational_denoted (r : Relational) :
    Denotes decodeRelational (encodeRelational r) True True r :=
  (Finds.field (denotes_name (by cases r.kind <;> rfl))).map Relational.mk
    |>.seq (.field (denotes_name (by cases r.operator <;> rfl)))
    |>.iff (by simp) (by simp)
    |>.decode (by decide)

theorem options_denoted (o : MatchOptions) :
    Denotes decodeOptions (encodeOptions o) True (o.Obeys .fitting) o :=
  (Finds.optional fun m _ => ⟨denotes_name (by cases m <;> rfl), nofun⟩).map MatchOptions.mk
    |>.seq (.optional fun r _ => ⟨relational_denoted r, nofun⟩)
    |>.seq (.optional fun s _ => ⟨string_denoted s, nofun⟩)
    |>.iff (by simp) (by simp [MatchOptions.Obeys])
    |>.decode (by decide)

theorem transform_denoted (b : BodyTransform) :
    Denotes decodeTransform (encodeTransform b) (b.Obeys .checked) (b.Obeys .fitting) b := by
  cases b with
  | raw | text => exact denotes_of_ok rfl (fun _ => ⟨trivial, trivial⟩) rfl
  | content types =>
    have htypes := stringList_denoted types
    have hwhole : (encodeTransform (.content types)).fault? = none := by
      change ((none : Option TextFault).or ((encodeStringList types).fault?.or none)) = none
      rw [htypes.whole]
      rfl
    have hdecode : decodeTransform (encodeTransform (.content types))
        = (decodeStringList (encodeStringList types)).map .content := by
      have hmembers : faultMembers? [("type", .string "content"),
          ("content_types", encodeStringList types)] = none := hwhole
      rw [encodeTransform, typed, decodeTransform, hmembers]
      change ((decodeStringList (encodeStringList types)).map BodyTransform.content).bind _ = _
      cases decodeStringList (encodeStringList types) <;> rfl
    refine ⟨hwhole, fun h => ⟨trivial, htypes.plain h, trivial⟩, fun b => ?_⟩
    rw [hdecode, map_eq_ok]
    constructor
    · rintro ⟨l, hl, rfl⟩
      obtain ⟨hc, rfl⟩ := (htypes.decodes l).1 hl
      exact ⟨hc, rfl⟩
    · rintro ⟨hc, rfl⟩
      exact ⟨types, (htypes.decodes types).2 ⟨hc, rfl⟩, rfl⟩

end Leaves

section Fields

variable (name : String)

theorem optionsField_finds (o : MatchOptions) :
    optionsField.Finds ["options"] True (o.Obeys .fitting) [("options", encodeOptions o)] o :=
  .default (options_denoted o)

theorem stringsField_finds (l : StringList) :
    (stringsField name).Finds [name] (l.Obeys .checked) (l.Obeys .fitting)
      [(name, encodeStringList l)] l := .field (stringList_denoted l)

theorem optionalStrings_finds (o : Option StringList) :
    (optionalStrings name).Finds [name] (∀ l ∈ o, l.Obeys .checked) (∀ l ∈ o, l.Obeys .fitting)
      (optionalMember name encodeStringList o) o :=
  .optional fun l _ => ⟨stringList_denoted l, nofun⟩

theorem stringField_finds (s : StringLit) :
    (stringField name).Finds [name] True (s.Obeys .fitting) [(name, encodeString s)] s :=
  .field (string_denoted s)

theorem optionalString_finds (o : Option StringLit) :
    (optionalString name).Finds [name] True (∀ s ∈ o, s.Obeys .fitting)
      (optionalMember name encodeString o) o :=
  (Finds.optional fun s _ => ⟨string_denoted s, nofun⟩).iff (by simp) Iff.rfl

theorem optionalNumber_finds (o : Option NumberLit) :
    (optionalNumber name).Finds [name] True (∀ n ∈ o, n.Obeys .fitting)
      (optionalMember name encodeNumber o) o :=
  (Finds.optional fun n _ => ⟨number_denoted n, nofun⟩).iff (by simp) Iff.rfl

theorem flagField_finds (b : Bool) :
    (flagField name).Finds [name] True True [(name, .bool b)] b := .default (denotes_bool b)

theorem addressPartField_finds (p : Option AddressPart) :
    addressPartField.Finds ["address_part"] True True (addressPartMember p) p :=
  (Finds.optional fun p _ => ⟨denotes_name (by cases p <;> rfl), nofun⟩).iff (by simp) (by simp)

end Fields

section Records

theorem addressRecord_finds (t : AddressTest) :
    addressRecord.Finds ["address_part", "options", "headers", "keys", "location"]
      (t.Obeys .checked) (t.Obeys .fitting) (addressMembers t) t :=
  (addressPartField_finds t.addressPart).map AddressTest.mk
    |>.seq (optionsField_finds t.options)
    |>.seq (stringsField_finds "headers" t.headers)
    |>.seq (stringsField_finds "keys" t.keys)
    |>.seq (locationField_finds t.location)
    |>.of_eq (by simp [addressMembers])
    |>.iff (by simp [AddressTest.Obeys]) (by simp [AddressTest.Obeys, and_assoc])

theorem envelopeRecord_finds (t : EnvelopeTest) :
    envelopeRecord.Finds ["address_part", "options", "envelope_parts", "keys", "location"]
      (t.Obeys .checked) (t.Obeys .fitting) (envelopeMembers t) t :=
  (addressPartField_finds t.addressPart).map EnvelopeTest.mk
    |>.seq (optionsField_finds t.options)
    |>.seq (stringsField_finds "envelope_parts" t.envelopeParts)
    |>.seq (stringsField_finds "keys" t.keys)
    |>.seq (locationField_finds t.location)
    |>.of_eq (by simp [envelopeMembers])
    |>.iff (by simp [EnvelopeTest.Obeys]) (by simp [EnvelopeTest.Obeys, and_assoc])

theorem headerRecord_finds (t : HeaderTest) :
    headerRecord.Finds ["options", "headers", "keys", "location"]
      (t.Obeys .checked) (t.Obeys .fitting) (headerMembers t) t :=
  (optionsField_finds t.options).map HeaderTest.mk
    |>.seq (stringsField_finds "headers" t.headers)
    |>.seq (stringsField_finds "keys" t.keys)
    |>.seq (locationField_finds t.location)
    |>.iff (by simp [HeaderTest.Obeys]) (by simp [HeaderTest.Obeys, and_assoc])

theorem sizeRecord_finds (t : SizeTest) :
    sizeRecord.Finds ["over", "size", "location"] (t.Obeys .checked) (t.Obeys .fitting)
      (sizeMembers t) t :=
  (Finds.field (denotes_bool t.above)).map SizeTest.mk
    |>.seq (.field (number_denoted t.size))
    |>.seq (locationField_finds t.location)
    |>.iff (by simp [SizeTest.Obeys]) (by simp [SizeTest.Obeys])

theorem bodyRecord_finds (t : BodyTest) :
    bodyRecord.Finds ["transform", "options", "keys", "location"]
      (t.Obeys .checked) (t.Obeys .fitting) (bodyMembers t) t :=
  (Finds.optional fun b _ => ⟨transform_denoted b, by cases b <;> nofun⟩).map BodyTest.mk
    |>.seq (optionsField_finds t.options)
    |>.seq (stringsField_finds "keys" t.keys)
    |>.seq (locationField_finds t.location)
    |>.of_eq (by simp [bodyMembers])
    |>.iff (by simp [BodyTest.Obeys]) (by simp [BodyTest.Obeys, and_assoc])

theorem dateRecord_finds (t : DateTest) :
    dateRecord.Finds ["zone", "original_zone", "options", "header", "date_part", "keys", "location"]
      (t.Obeys .checked) (t.Obeys .fitting) (dateMembers t) t :=
  (optionalString_finds "zone" t.zone).map DateTest.mk
    |>.seq (flagField_finds "original_zone" t.originalZone)
    |>.seq (optionsField_finds t.options)
    |>.seq (stringField_finds "header" t.header)
    |>.seq (stringField_finds "date_part" t.datePart)
    |>.seq (stringsField_finds "keys" t.keys)
    |>.seq (locationField_finds t.location)
    |>.of_eq (by simp [dateMembers])
    |>.iff (by simp [DateTest.Obeys]) (by simp [DateTest.Obeys, and_assoc])

theorem currentDateRecord_finds (t : CurrentDateTest) :
    currentDateRecord.Finds ["zone", "options", "date_part", "keys", "location"]
      (t.Obeys .checked) (t.Obeys .fitting) (currentDateMembers t) t :=
  (optionalString_finds "zone" t.zone).map CurrentDateTest.mk
    |>.seq (optionsField_finds t.options)
    |>.seq (stringField_finds "date_part" t.datePart)
    |>.seq (stringsField_finds "keys" t.keys)
    |>.seq (locationField_finds t.location)
    |>.of_eq (by simp [currentDateMembers])
    |>.iff (by simp [CurrentDateTest.Obeys]) (by simp [CurrentDateTest.Obeys, and_assoc])

theorem hasFlagRecord_finds (t : HasFlagTest) :
    hasFlagRecord.Finds ["options", "variable_names", "flags", "location"]
      (t.Obeys .checked) (t.Obeys .fitting) (hasFlagMembers t) t :=
  (optionsField_finds t.options).map HasFlagTest.mk
    |>.seq (optionalStrings_finds "variable_names" t.variableNames)
    |>.seq (stringsField_finds "flags" t.flags)
    |>.seq (locationField_finds t.location)
    |>.iff (by simp [HasFlagTest.Obeys]) (by simp [HasFlagTest.Obeys, and_assoc])

theorem stringTestRecord_finds (t : StringTest) :
    stringTestRecord.Finds ["options", "source", "keys", "location"]
      (t.Obeys .checked) (t.Obeys .fitting) (stringTestMembers t) t :=
  (optionsField_finds t.options).map StringTest.mk
    |>.seq (stringsField_finds "source" t.source)
    |>.seq (stringsField_finds "keys" t.keys)
    |>.seq (locationField_finds t.location)
    |>.iff (by simp [StringTest.Obeys]) (by simp [StringTest.Obeys, and_assoc])

theorem duplicateRecord_finds (t : DuplicateTest) :
    duplicateRecord.Finds ["handle", "header", "unique_id", "seconds", "last", "location"]
      (t.Obeys .checked) (t.Obeys .fitting) (duplicateMembers t) t :=
  (optionalString_finds "handle" t.handle).map DuplicateTest.mk
    |>.seq (optionalString_finds "header" t.header)
    |>.seq (optionalString_finds "unique_id" t.uniqueId)
    |>.seq (optionalNumber_finds "seconds" t.seconds)
    |>.seq (flagField_finds "last" t.last)
    |>.seq (locationField_finds t.location)
    |>.iff (by simp [DuplicateTest.Obeys]) (by simp [DuplicateTest.Obeys, and_assoc])

theorem requireRecord_finds (c : RequireCommand) :
    requireRecord.Finds ["capabilities", "location"] (c.Obeys .checked) (c.Obeys .fitting)
      (requireMembers c) c := by
  have hnames : Denotes (decodeChecked (decodeList decodeString) checkCapabilities)
      (.array (c.capabilities.map .string)) _ _ c.capabilities :=
    denotes_checked (denotes_list fun s _ => denotes_string s) fun _ => checkCapabilities_eq_ok
  exact (Finds.field hnames).map RequireCommand.mk
    |>.seq (locationField_finds c.location)
    |>.iff (by simp [RequireCommand.Obeys]) (by simp [RequireCommand.Obeys])

theorem keepRecord_finds (c : KeepCommand) :
    keepRecord.Finds ["flags", "location"] (c.Obeys .checked) (c.Obeys .fitting)
      (keepMembers c) c :=
  (optionalStrings_finds "flags" c.flags).map KeepCommand.mk
    |>.seq (locationField_finds c.location)
    |>.iff (by simp [KeepCommand.Obeys]) (by simp [KeepCommand.Obeys])

theorem fileIntoRecord_finds (c : FileIntoCommand) :
    fileIntoRecord.Finds ["mailbox", "copy", "create", "flags", "location"]
      (c.Obeys .checked) (c.Obeys .fitting) (fileIntoMembers c) c :=
  (stringField_finds "mailbox" c.mailbox).map FileIntoCommand.mk
    |>.seq (flagField_finds "copy" c.copy)
    |>.seq (flagField_finds "create" c.create)
    |>.seq (optionalStrings_finds "flags" c.flags)
    |>.seq (locationField_finds c.location)
    |>.iff (by simp [FileIntoCommand.Obeys]) (by simp [FileIntoCommand.Obeys, and_assoc])

theorem redirectRecord_finds (c : RedirectCommand) :
    redirectRecord.Finds ["address", "copy", "location"] (c.Obeys .checked) (c.Obeys .fitting)
      (redirectMembers c) c :=
  (stringField_finds "address" c.address).map RedirectCommand.mk
    |>.seq (flagField_finds "copy" c.copy)
    |>.seq (locationField_finds c.location)
    |>.iff (by simp [RedirectCommand.Obeys]) (by simp [RedirectCommand.Obeys])

theorem rejectRecord_finds (c : RejectCommand) :
    rejectRecord.Finds ["reason", "location"] (c.Obeys .checked) (c.Obeys .fitting)
      (rejectMembers c) c :=
  (stringField_finds "reason" c.reason).map RejectCommand.mk
    |>.seq (locationField_finds c.location)
    |>.iff (by simp [RejectCommand.Obeys]) (by simp [RejectCommand.Obeys])

theorem setRecord_finds (c : SetCommand) :
    setRecord.Finds ["modifiers", "name", "value", "location"] (c.Obeys .checked)
      (c.Obeys .fitting) (setMembers c) c := by
  have hmodifiers : Denotes
      (decodeList (decodeWordOf (named SetModifier.word SetModifier.values)) : TreeDecoder _)
      (.array (c.modifiers.map fun m => .string m.word)) _ _ c.modifiers :=
    denotes_list fun m _ => denotes_name (by cases m <;> rfl)
  exact (Finds.default hmodifiers).map SetCommand.mk
    |>.seq (stringField_finds "name" c.name)
    |>.seq (stringField_finds "value" c.value)
    |>.seq (locationField_finds c.location)
    |>.iff (by simp [SetCommand.Obeys]) (by simp [SetCommand.Obeys, and_assoc])

theorem vacationRecord_finds (c : VacationCommand) :
    vacationRecord.Finds
      ["reason", "days", "seconds", "subject", "from", "addresses", "mime", "handle", "location"]
      (c.Obeys .checked) (c.Obeys .fitting) (vacationMembers c) c :=
  (stringField_finds "reason" c.reason).map VacationCommand.mk
    |>.seq (optionalNumber_finds "days" c.days)
    |>.seq (optionalNumber_finds "seconds" c.seconds)
    |>.seq (optionalString_finds "subject" c.subject)
    |>.seq (optionalString_finds "from" c.sender)
    |>.seq (optionalStrings_finds "addresses" c.addresses)
    |>.seq (flagField_finds "mime" c.mime)
    |>.seq (optionalString_finds "handle" c.handle)
    |>.seq (locationField_finds c.location)
    |>.iff (by simp [VacationCommand.Obeys]) (by simp [VacationCommand.Obeys, and_assoc])

theorem flagRecord_finds (c : FlagCommand) :
    flagRecord.Finds ["action", "variable_name", "flags", "location"]
      (c.Obeys .checked) (c.Obeys .fitting) (flagMembers c) c := by
  have haction : Denotes (decodeWordOf (named FlagAction.word FlagAction.values) : TreeDecoder _)
      (.string c.action.word) _ _ c.action := denotes_name (by cases c.action <;> rfl)
  exact (Finds.field haction).map FlagCommand.mk
    |>.seq (optionalString_finds "variable_name" c.variableName)
    |>.seq (stringsField_finds "flags" c.flags)
    |>.seq (locationField_finds c.location)
    |>.iff (by simp [FlagCommand.Obeys]) (by simp [FlagCommand.Obeys, and_assoc])

theorem notifyRecord_finds (c : NotifyCommand) :
    notifyRecord.Finds ["method", "from", "importance", "options", "message", "location"]
      (c.Obeys .checked) (c.Obeys .fitting) (notifyMembers c) c := by
  have himportance : (optional "importance"
        (decodeWordOf (named Importance.name Importance.values)) : Record TreeFlaw _).Finds
      ["importance"] _ _ (optionalMember "importance" (fun i => .string i.name) c.importance)
      c.importance := .optional fun i _ => ⟨denotes_name (by cases i <;> rfl), nofun⟩
  exact (stringField_finds "method" c.method).map NotifyCommand.mk
    |>.seq (optionalString_finds "from" c.sender)
    |>.seq himportance
    |>.seq (optionalStrings_finds "options" c.options)
    |>.seq (optionalString_finds "message" c.message)
    |>.seq (locationField_finds c.location)
    |>.iff (by simp [NotifyCommand.Obeys]) (by simp [NotifyCommand.Obeys, and_assoc])

end Records

section Depth

theorem depth_le_depthItems {js : List Json} {j : Json} (h : j ∈ js) : j.depth ≤ depthItems js := by
  induction js with
  | nil => cases h
  | cons k js ih =>
    rw [depthItems]
    obtain rfl | h := List.mem_cons.1 h
    · exact Nat.le_max_left _ _
    · exact Nat.le_trans (ih h) (Nat.le_max_right _ _)

theorem depth_le_depthMembers {ms : Members} {m : String × Json} (h : m ∈ ms) :
    m.2.depth ≤ depthMembers ms := by
  induction ms with
  | nil => cases h
  | cons n ms ih =>
    rw [depthMembers]
    obtain rfl | h := List.mem_cons.1 h
    · exact Nat.le_max_left _ _
    · exact Nat.le_trans (ih h) (Nat.le_max_right _ _)

theorem item_depth_lt {js : List Json} {j : Json} {n : Nat} (hd : (Json.array js).depth < n)
    (h : j ∈ js) : j.depth < n :=
  Nat.lt_of_le_of_lt (Nat.le_succ_of_le (depth_le_depthItems h)) hd

theorem member_depth_lt {ms : Members} {m : String × Json} {n : Nat}
    (hd : (Json.object ms).depth < n + 1) (h : m ∈ ms) : m.2.depth < n :=
  Nat.lt_of_le_of_lt (depth_le_depthMembers h) (Nat.lt_of_succ_lt_succ hd)

theorem typed_depth_lt {type : String} {ms : Members} {m : String × Json} {n : Nat}
    (hd : (typed type ms).depth < n + 1) (h : m ∈ ms) : m.2.depth < n :=
  member_depth_lt hd (List.mem_cons_of_mem _ h)

theorem encodeTests_eq_map (ts : List Test) : encodeTests ts = ts.map encodeTest := by
  induction ts with
  | nil => rfl
  | cons t ts ih => rw [encodeTests, ih, List.map_cons]

theorem encodeArguments_eq_map (as : List Argument) :
    encodeArguments as = as.map encodeArgument := by
  induction as with
  | nil => rfl
  | cons a as ih => rw [encodeArguments, ih, List.map_cons]

theorem encodeCommands_eq_map (cs : List Command) : encodeCommands cs = cs.map encodeCommand := by
  induction cs with
  | nil => rfl
  | cons c cs ih => rw [encodeCommands, ih, List.map_cons]

end Depth

section Tests

variable {test : TreeDecoder Test} {argument : TreeDecoder Argument}

theorem testsField_finds (what : String) {ts : List Test}
    (h : ∀ t ∈ ts, Denotes test (encodeTest t) (t.Obeys .checked) (t.Obeys .fitting) t) :
    (testsField what test).Finds ["tests"] (TreeLaw.checked.tests ts ∧ TestsObey .checked ts)
      (TestsObey .fitting ts) [("tests", .array (encodeTests ts))] ts := by
  rw [encodeTests_eq_map, testsObey_iff, testsObey_iff]
  exact (Finds.field (denotes_checked (denotes_list h) fun _ => checkTests_eq_ok)).iff and_comm
    Iff.rfl

theorem argumentsField_finds {as : List Argument}
    (h : ∀ a ∈ as, Denotes argument (encodeArgument a) (a.Obeys .checked) (a.Obeys .fitting) a) :
    (argumentsField argument).Finds ["arguments"] (ArgumentsObey .checked as)
      (ArgumentsObey .fitting as) [("arguments", .array (encodeArguments as))] as := by
  rw [encodeArguments_eq_map, argumentsObey_iff, argumentsObey_iff]
  exact .default (denotes_list h)

theorem nameField_finds {check : String → Except TreeFlaw String} {Q : String → Prop}
    (hc : ∀ a b, check a = .ok b ↔ Q a ∧ a = b) (name : String) :
    (field "name" (decodeChecked decodeString check) : Record TreeFlaw String).Finds ["name"]
      (Q name) True [("name", .string name)] name :=
  (Finds.field (denotes_checked (denotes_string name) (hc name))).iff (by simp) Iff.rfl

section Step

variable {n : Nat}
  (ht : ∀ t : Test, (encodeTest t).depth < n →
    Denotes test (encodeTest t) (t.Obeys .checked) (t.Obeys .fitting) t)

include ht

theorem testsField_within (what : String) {ts : List Test}
    (hd : (Json.array (encodeTests ts)).depth < n) :
    (testsField what test).Finds ["tests"] (TreeLaw.checked.tests ts ∧ TestsObey .checked ts)
      (TestsObey .fitting ts) [("tests", .array (encodeTests ts))] ts :=
  testsField_finds what fun t hmem =>
    ht t (item_depth_lt hd (encodeTests_eq_map ts ▸ List.mem_map_of_mem hmem))

theorem testOf_denotes (ha : ∀ a : Argument, (encodeArgument a).depth < n →
      Denotes argument (encodeArgument a) (a.Obeys .checked) (a.Obeys .fitting) a) (t : Test)
    (hd : (encodeTest t).depth < n + 1) :
    Denotes (decodeTagged (decodeVariantOrNumber testKinds) (testOf test argument)) (encodeTest t)
      (t.Obeys .checked) (t.Obeys .fitting) t := by
  cases t with
  | always l => exact ((locationField_finds l).map Test.always).tagged rfl rfl (by decide)
  | never l => exact ((locationField_finds l).map Test.never).tagged rfl rfl (by decide)
  | negation t l =>
    have hinner := ht t (typed_depth_lt (m := ("test", encodeTest t)) hd List.mem_cons_self)
    exact (Finds.field hinner).map Test.negation
      |>.seq (locationField_finds l)
      |>.iff (by simp [Test.Obeys]) Iff.rfl
      |>.tagged rfl rfl (by decide)
  | allOf ts l =>
    have hts := testsField_within ht "allof"
      (typed_depth_lt (m := ("tests", .array (encodeTests ts))) hd List.mem_cons_self)
    exact hts.map Test.allOf
      |>.seq (locationField_finds l)
      |>.iff (by simp [Test.Obeys]) (by simp [Test.Obeys])
      |>.tagged rfl rfl (by decide)
  | anyOf ts l =>
    have hts := testsField_within ht "anyof"
      (typed_depth_lt (m := ("tests", .array (encodeTests ts))) hd List.mem_cons_self)
    exact hts.map Test.anyOf
      |>.seq (locationField_finds l)
      |>.iff (by simp [Test.Obeys]) (by simp [Test.Obeys])
      |>.tagged rfl rfl (by decide)
  | address t => exact ((addressRecord_finds t).map Test.address).tagged rfl rfl (by decide)
  | header t => exact ((headerRecord_finds t).map Test.header).tagged rfl rfl (by decide)
  | envelope t => exact ((envelopeRecord_finds t).map Test.envelope).tagged rfl rfl (by decide)
  | headerExists headers l =>
    exact (stringsField_finds "headers" headers).map Test.headerExists
      |>.seq (locationField_finds l)
      |>.iff (by simp [Test.Obeys]) Iff.rfl
      |>.tagged rfl rfl (by decide)
  | size t => exact ((sizeRecord_finds t).map Test.size).tagged rfl rfl (by decide)
  | body t => exact ((bodyRecord_finds t).map Test.body).tagged rfl rfl (by decide)
  | date t => exact ((dateRecord_finds t).map Test.date).tagged rfl rfl (by decide)
  | currentDate t =>
    exact ((currentDateRecord_finds t).map Test.currentDate).tagged rfl rfl (by decide)
  | hasFlag t => exact ((hasFlagRecord_finds t).map Test.hasFlag).tagged rfl rfl (by decide)
  | string t => exact ((stringTestRecord_finds t).map Test.string).tagged rfl rfl (by decide)
  | ihave capabilities l =>
    exact (stringsField_finds "capabilities" capabilities).map Test.ihave
      |>.seq (locationField_finds l)
      |>.iff (by simp [Test.Obeys]) Iff.rfl
      |>.tagged rfl rfl (by decide)
  | duplicate t =>
    exact ((duplicateRecord_finds t).map Test.duplicate).tagged rfl rfl (by decide)
  | generic name as l =>
    have has := argumentsField_finds fun a hmem =>
      ha a (item_depth_lt (typed_depth_lt (m := ("arguments", .array (encodeArguments as))) hd
        (by simp)) (encodeArguments_eq_map as ▸ List.mem_map_of_mem hmem))
    exact (nameField_finds (fun _ _ => checkTestName_eq_ok) name).map Test.generic
      |>.seq has
      |>.seq (locationField_finds l)
      |>.iff (by simp [Test.Obeys]) (by simp [Test.Obeys])
      |>.tagged rfl rfl (by decide)

theorem argumentOf_denotes (a : Argument) (hd : (encodeArgument a).depth < n + 1) :
    Denotes (decodeTagged (decodeVariantOrNumber argumentKinds) (argumentOf test))
      (encodeArgument a) (a.Obeys .checked) (a.Obeys .fitting) a := by
  cases a with
  | tag name l =>
    exact (nameField_finds (fun _ _ => checkIdentifier_eq_ok) name).map Argument.tag
      |>.seq (locationField_finds l)
      |>.iff (by simp [Argument.Obeys]) (by simp [Argument.Obeys])
      |>.tagged rfl rfl (by decide)
  | number n =>
    exact (numberRecord_finds n).map Argument.number
      |>.iff (by simp [Argument.Obeys]) Iff.rfl
      |>.tagged rfl rfl (by decide)
  | string s =>
    exact (stringRecord_finds s).map Argument.string
      |>.iff (by simp [Argument.Obeys]) Iff.rfl
      |>.tagged rfl rfl (by decide)
  | strings l =>
    have hn : "type" ∉ (stringListMembers l).map (·.1) := fun hm =>
      absurd ((stringListRecord_finds l).named.subset hm) (by decide)
    exact denotes_tagged rfl hn ((stringList_denoted l).map Argument.strings)
  | tests ts l =>
    have hts := testsField_within ht "a test list"
      (typed_depth_lt (m := ("tests", .array (encodeTests ts))) hd List.mem_cons_self)
    exact hts.map Argument.tests
      |>.seq (locationField_finds l)
      |>.iff (by simp [Argument.Obeys]) (by simp [Argument.Obeys])
      |>.tagged rfl rfl (by decide)

end Step

theorem testDecoder_denotes (fuel : Nat) :
    (∀ t : Test, (encodeTest t).depth < fuel →
        Denotes (testDecoder fuel) (encodeTest t) (t.Obeys .checked) (t.Obeys .fitting) t)
      ∧ ∀ a : Argument, (encodeArgument a).depth < fuel →
        Denotes (argumentDecoder fuel) (encodeArgument a) (a.Obeys .checked) (a.Obeys .fitting)
          a := by
  induction fuel with
  | zero => exact ⟨nofun, nofun⟩
  | succ fuel ih => exact ⟨testOf_denotes ih.1 ih.2, argumentOf_denotes ih.1⟩

theorem innerTest_denoted (t : Test) :
    Denotes decodeInnerTest (encodeTest t) (t.Obeys .checked) (t.Obeys .fitting) t :=
  have ht := (testDecoder_denotes (fuelFor (encodeTest t))).1 t (Nat.lt_succ_self _)
  ⟨ht.whole, ht.plain, ht.decodes⟩

theorem innerArgument_denoted (a : Argument) :
    Denotes decodeInnerArgument (encodeArgument a) (a.Obeys .checked) (a.Obeys .fitting) a :=
  have ha := (testDecoder_denotes (fuelFor (encodeArgument a))).2 a (Nat.lt_succ_self _)
  ⟨ha.whole, ha.plain, ha.decodes⟩

end Tests

section Commands

theorem depthMembers_append (ms ns : Members) :
    depthMembers (ms ++ ns) = max (depthMembers ms) (depthMembers ns) := by
  induction ms with
  | nil => rw [List.nil_append, depthMembers, Nat.zero_max]
  | cons m ms ih => rw [List.cons_append, depthMembers, depthMembers, ih, Nat.max_assoc]

theorem commandsField_finds {d : TreeDecoder Command} {cs : List Command}
    (h : ∀ c ∈ cs, Denotes d (encodeCommand c) (c.Obeys .checked) (c.Obeys .fitting) c) :
    (field "commands" (decodeList d)).Finds ["commands"] (CommandsObey .checked cs)
      (CommandsObey .fitting cs) [("commands", .array (encodeCommands cs))] cs := by
  rw [encodeCommands_eq_map, commandsObey_iff, commandsObey_iff]
  exact .field (denotes_list h)

/-- The links after a block stand beside it, one level below the link or command before them. -/
theorem chain_depth_lt {type : String} {ms : Members} {c : Chain} {l : Option Location} {n : Nat}
    (hd : (typed type (ms ++ chainMember c ++ locationMember l)).depth < n + 1) :
    depthMembers (chainMember c) < n := by
  have hle : depthMembers (chainMember c)
      ≤ depthMembers (("type", .string type) :: (ms ++ chainMember c ++ locationMember l)) := by
    rw [depthMembers, depthMembers_append, depthMembers_append]
    omega
  exact Nat.lt_of_le_of_lt hle (Nat.lt_of_succ_lt_succ hd)

theorem typed_member_depth_lt {name type : String} {ms : Members} {n : Nat}
    (hd : depthMembers [(name, typed type ms)] < n) : (typed type ms).depth < n :=
  Nat.lt_of_le_of_lt (Nat.le_max_left _ _) hd

theorem chainField_finds {link : TreeDecoder Chain} {type : String} {ms : Members} {c : Chain}
    {P F : Prop} (h : Denotes link (typed type ms) P F c) :
    (chainField link).Finds ["alternate"] P F [("alternate", typed type ms)] c :=
  (Finds.optional (f := fun _ => typed type ms) (P := fun _ => P) (F := fun _ => F) (o := some c)
    fun c' hc' => by
      cases hc'
      exact ⟨h, nofun⟩).map (fun chain => chain.getD .done)
    |>.iff (by simp) (by simp)

section Step

variable {n : Nat} {command : TreeDecoder Command} {block : TreeDecoder Block}
  {link : TreeDecoder Chain}

theorem blockRecord_denotes (hc : ∀ c : Command, (encodeCommand c).depth < n →
      Denotes command (encodeCommand c) (c.Obeys .checked) (c.Obeys .fitting) c) (b : Block)
    (hd : (encodeBlock b).depth < n + 1) :
    Denotes (blockRecord command).decode (encodeBlock b) (b.Obeys .checked) (b.Obeys .fitting)
      b := by
  obtain ⟨cs, l⟩ := b
  have hcommands := commandsField_finds (d := command) fun c hmem =>
    hc c (item_depth_lt (member_depth_lt (m := ("commands", .array (encodeCommands cs))) hd
      List.mem_cons_self) (encodeCommands_eq_map cs ▸ List.mem_map_of_mem hmem))
  exact hcommands.map Block.mk
    |>.seq (locationField_finds l)
    |>.iff (by simp [Block.Obeys]) Iff.rfl
    |>.decode (by decide)

variable
  (hb : ∀ b : Block, (encodeBlock b).depth < n →
    Denotes block (encodeBlock b) (b.Obeys .checked) (b.Obeys .fitting) b)
  (hl : ∀ c : Chain, depthMembers (chainMember c) < n →
    (chainField link).Finds ["alternate"] (c.Obeys .checked) (c.Obeys .fitting) (chainMember c) c)

include hb hl

theorem commandOf_denotes {tag : TreeDecoder CommandKind}
    (htag : ∀ type, tag (.string type) = lookupVariant commandKinds type) (c : Command)
    (hd : (encodeCommand c).depth < n + 1) :
    Denotes (decodeTagged tag (commandOf block link)) (encodeCommand c) (c.Obeys .checked)
      (c.Obeys .fitting) c := by
  cases c with
  | require c => exact ((requireRecord_finds c).map Command.require).tagged (htag _) rfl (by decide)
  | ifTest t b c l =>
    have hblock := hb b (typed_depth_lt (m := ("consequent", encodeBlock b)) hd (by simp))
    have hchain := hl c (chain_depth_lt hd)
    exact (Finds.field (innerTest_denoted t)).map Command.ifTest
      |>.seq (.field hblock)
      |>.seq hchain
      |>.seq (locationField_finds l)
      |>.iff (by simp [Command.Obeys, and_assoc]) (by simp [Command.Obeys, and_assoc])
      |>.tagged (htag _) rfl (by decide)
  | stop l => exact ((locationField_finds l).map Command.stop).tagged (htag _) rfl (by decide)
  | keep c => exact ((keepRecord_finds c).map Command.keep).tagged (htag _) rfl (by decide)
  | fileInto c =>
    exact ((fileIntoRecord_finds c).map Command.fileInto).tagged (htag _) rfl (by decide)
  | redirect c =>
    exact ((redirectRecord_finds c).map Command.redirect).tagged (htag _) rfl (by decide)
  | discard l => exact ((locationField_finds l).map Command.discard).tagged (htag _) rfl (by decide)
  | reject c => exact ((rejectRecord_finds c).map Command.reject).tagged (htag _) rfl (by decide)
  | setVariable c =>
    exact ((setRecord_finds c).map Command.setVariable).tagged (htag _) rfl (by decide)
  | vacation c =>
    exact ((vacationRecord_finds c).map Command.vacation).tagged (htag _) rfl (by decide)
  | flag c => exact ((flagRecord_finds c).map Command.flag).tagged (htag _) rfl (by decide)
  | notify c => exact ((notifyRecord_finds c).map Command.notify).tagged (htag _) rfl (by decide)
  | generic name as l =>
    have hblock : (optional "block" block).Finds ["block"]
        (∀ b ∈ none, Block.Obeys .checked b) (∀ b ∈ none, Block.Obeys .fitting b)
        (optionalMember "block" encodeBlock none) none := .optional fun _ h => by cases h
    exact (nameField_finds (fun _ _ => checkCommandName_eq_ok) name).map genericCommand
      |>.seq (argumentsField_finds fun a _ => innerArgument_denoted a)
      |>.seq hblock
      |>.seq (locationField_finds l)
      |>.iff (by simp [Command.Obeys]) (by simp [Command.Obeys])
      |>.tagged (htag _) rfl (by decide)
  | genericBlock name as b l =>
    have hbody := hb b (typed_depth_lt (m := ("block", encodeBlock b)) hd (by simp))
    have hblock : (optional "block" block).Finds ["block"]
        (∀ b' ∈ some b, b'.Obeys .checked) (∀ b' ∈ some b, b'.Obeys .fitting)
        (optionalMember "block" encodeBlock (some b)) (some b) :=
      .optional fun b' hb' => by
        cases hb'
        exact ⟨hbody, by cases b; exact fun h => by cases h⟩
    exact (nameField_finds (fun _ _ => checkCommandName_eq_ok) name).map genericCommand
      |>.seq (argumentsField_finds fun a _ => innerArgument_denoted a)
      |>.seq hblock
      |>.seq (locationField_finds l)
      |>.iff (by simp [Command.Obeys, and_assoc]) (by simp [Command.Obeys, and_assoc])
      |>.tagged (htag _) rfl (by decide)

theorem linkOf_finds (c : Chain) (hd : depthMembers (chainMember c) < n + 1) :
    (chainField (decodeTagged (decodeVariantOrNumber linkKinds) (linkOf block link))).Finds
      ["alternate"] (c.Obeys .checked) (c.Obeys .fitting) (chainMember c) c := by
  cases c with
  | done =>
    have hnothing : (optional "alternate"
        (decodeTagged (decodeVariantOrNumber linkKinds) (linkOf block link))).Finds ["alternate"]
        (∀ c ∈ none, Chain.Obeys .checked c) (∀ c ∈ none, Chain.Obeys .fitting c)
        (optionalMember "alternate" (fun _ => Json.null) none) none :=
      .optional fun _ h => by cases h
    exact (hnothing.iff (by simp [Chain.Obeys]) (by simp [Chain.Obeys])).map
      fun chain : Option Chain => chain.getD .done
  | elsif t b c l =>
    have hd' := typed_member_depth_lt hd
    have hblock := hb b (typed_depth_lt (m := ("consequent", encodeBlock b)) hd' (by simp))
    have hchain := hl c (chain_depth_lt hd')
    refine chainField_finds ?_
    exact (Finds.field (innerTest_denoted t)).map Chain.elsif
      |>.seq (.field hblock)
      |>.seq hchain
      |>.seq (locationField_finds l)
      |>.iff (by simp [Chain.Obeys, and_assoc]) (by simp [Chain.Obeys, and_assoc])
      |>.tagged rfl rfl (by decide)
  | otherwise b l =>
    have hblock := hb b (typed_depth_lt (m := ("consequent", encodeBlock b))
      (typed_member_depth_lt hd) (by simp))
    refine chainField_finds ?_
    exact (Finds.field hblock).map Chain.otherwise
      |>.seq (locationField_finds l)
      |>.iff (by simp [Chain.Obeys]) Iff.rfl
      |>.tagged rfl rfl (by decide)

end Step

theorem commandDecoder_denotes (fuel : Nat) :
    (∀ c : Command, (encodeCommand c).depth < fuel →
        Denotes (commandDecoder fuel) (encodeCommand c) (c.Obeys .checked) (c.Obeys .fitting) c)
      ∧ (∀ b : Block, (encodeBlock b).depth < fuel →
        Denotes (blockDecoder fuel) (encodeBlock b) (b.Obeys .checked) (b.Obeys .fitting) b)
      ∧ ∀ c : Chain, depthMembers (chainMember c) < fuel →
        (chainField (linkDecoder fuel)).Finds ["alternate"] (c.Obeys .checked) (c.Obeys .fitting)
          (chainMember c) c := by
  induction fuel with
  | zero => exact ⟨nofun, nofun, nofun⟩
  | succ fuel ih =>
    obtain ⟨hc, hb, hl⟩ := ih
    exact ⟨commandOf_denotes hb hl fun _ => rfl, blockRecord_denotes hc, linkOf_finds hb hl⟩

theorem command_denoted (c : Command) :
    Denotes decodeCommand (encodeCommand c) (c.Obeys .checked) (c.Obeys .fitting) c := by
  obtain ⟨-, hb, hl⟩ := commandDecoder_denotes (fuelFor (encodeCommand c))
  have htag (type : String) : decodeVariant commandKinds (.string type)
      = (lookupVariant commandKinds type : Except Error CommandKind) := rfl
  have hc := commandOf_denotes hb hl htag c (Nat.lt_succ_of_lt (Nat.lt_succ_self _))
  exact ⟨hc.whole, hc.plain, hc.decodes⟩

/-- What a script is encoded as is decoded exactly if the script is checked, as that script. -/
theorem script_denoted (s : Script) :
    Denotes decodeScript (encodeScript s) (s.Obeys .checked) (s.Obeys .fitting) s :=
  (commandsField_finds fun c _ => command_denoted c).map Script.mk
    |>.seq (locationField_finds s.location)
    |>.iff (by simp [Script.Obeys]) Iff.rfl
    |>.decode (by decide)

/-- Of the scripts, exactly the checked ones come back from their JSON, as they are; and no JSON at
all is decoded as another script than a checked one. -/
theorem decodes_encoded_iff :
    (∀ s u, decodeScript (encodeScript s) = .ok u ↔ s.Obeys .checked ∧ s = u)
      ∧ ∀ j u, decodeScript j = .ok u → u.Obeys .checked :=
  ⟨fun s => (script_denoted s).decodes, fun _ _ => decodeScript_checked⟩

end Commands

end Interchange

end MailSieve
