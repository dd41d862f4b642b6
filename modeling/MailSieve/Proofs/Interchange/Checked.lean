import MailSieve.Interchange.Decode
import MailSieve.Proofs.Json.Yields
import MailSieve.Proofs.Script.Law

/-! Trees out of JSON are checked trees.
Every node that is read obeys the checks of hand-built nodes, however deep it lies: each check lets
a value through as it is, and what a record yields is put together from its members. -/

namespace MailSieve

section Checks

theorem checkIdentifier_eq_ok {a b : String} :
    checkIdentifier a = .ok b ↔ TreeLaw.checked.tagName a ∧ a = b := by
  unfold checkIdentifier
  by_cases h : isIdentifier a = true <;> simp [TreeLaw.checked, h]

theorem checkTestName_eq_ok {a b : String} :
    checkTestName a = .ok b ↔ TreeLaw.checked.testName a ∧ a = b := by
  unfold checkTestName
  by_cases h : isIdentifier a = true
  · cases hk : TestKeyword.ofWord? a <;> simp [TreeLaw.checked, h, hk]
  · simp [TreeLaw.checked, h]

theorem checkCommandName_eq_ok {a b : String} :
    checkCommandName a = .ok b ↔ TreeLaw.checked.commandName a ∧ a = b := by
  unfold checkCommandName
  by_cases h : isIdentifier a = true
  · cases hk : CommandKeyword.ofWord? a <;> simp [TreeLaw.checked, h, hk]
  · simp [TreeLaw.checked, h]

theorem checkCapabilities_eq_ok {names ns : List String} :
    checkCapabilities names = .ok ns ↔ TreeLaw.checked.capabilities names ∧ names = ns := by
  unfold checkCapabilities
  cases names <;> simp [TreeLaw.checked]

theorem checkTests_eq_ok {what : String} {tests ts : List Test} :
    checkTests what tests = .ok ts ↔ TreeLaw.checked.tests tests ∧ tests = ts := by
  unfold checkTests
  cases tests <;> simp [TreeLaw.checked]

theorem checkStrings_eq_ok {values vs : List StringLit} :
    checkStrings values = .ok vs ↔ TreeLaw.checked.strings values ∧ values = vs := by
  unfold checkStrings
  cases values <;> simp [TreeLaw.checked]

end Checks

namespace Interchange

open Json

theorem checkStringList_eq_ok {l m : StringList} :
    checkStringList l = .ok m ↔ l.Obeys .checked ∧ l = m := by
  unfold checkStringList
  rw [map_eq_ok]
  constructor
  · rintro ⟨vs, hvs, rfl⟩
    exact ⟨⟨(checkStrings_eq_ok.1 hvs).1, trivial, fun _ _ => trivial⟩, rfl⟩
  · rintro ⟨h, rfl⟩
    exact ⟨_, checkStrings_eq_ok.2 ⟨h.1, rfl⟩, rfl⟩

theorem decodeStringList_yields : Yields decodeStringList (StringList.Obeys .checked) := by
  intro j l h
  exact (Yields.any.checked (fun _ _ => checkStringList_eq_ok.1) j l h).1

theorem stringsField_yields {name : String} :
    (stringsField name).Yields (StringList.Obeys .checked) := .field decodeStringList_yields

theorem optionalStrings_yields {name : String} :
    (optionalStrings name).Yields fun o => ∀ l ∈ o, l.Obeys .checked :=
  .optional decodeStringList_yields

section Transform

theorem transformOf_yields {kind : TransformKind} {types : Option Json} {b : BodyTransform}
    (h : transformOf kind types = .ok b) : b.Obeys .checked := by
  unfold transformOf at h
  split at h
  · cases h
    trivial
  · obtain ⟨_, -, rfl⟩ := map_eq_ok.1 h
    trivial
  · cases h
    trivial
  · obtain ⟨_, -, rfl⟩ := map_eq_ok.1 h
    trivial
  · cases h
  · obtain ⟨l, hl, rfl⟩ := map_eq_ok.1 h
    exact decodeStringList_yields _ l hl

theorem transformOfBoth_yields {kind types : Json} {rest : Json.Members} {b : BodyTransform}
    (h : transformOfBoth kind types rest = .ok b) : b.Obeys .checked := by
  obtain ⟨k, -, h⟩ := bind_eq_ok.1 h
  obtain ⟨c, hc, h⟩ := bind_eq_ok.1 h
  obtain ⟨_, -, h⟩ := bind_eq_ok.1 h
  cases h
  exact transformOf_yields hc

theorem transformOfMembers_yields : Yields transformOfMembers (BodyTransform.Obeys .checked) := by
  intro ms b h
  unfold transformOfMembers at h
  split at h
  · cases h
  · split at h
    · cases h
    · obtain ⟨k, -, h⟩ := bind_eq_ok.1 h
      exact transformOf_yields h
  · split at h
    · obtain ⟨_, -, h⟩ := bind_eq_ok.1 h
      cases h
    · exact transformOfBoth_yields h
    · exact transformOfBoth_yields h
    · cases h

theorem transformOfItems_yields : Yields transformOfItems (BodyTransform.Obeys .checked) := by
  intro items b h
  unfold transformOfItems at h
  split at h
  · cases h
  · obtain ⟨_, -, h⟩ := bind_eq_ok.1 h
    cases h
  · obtain ⟨k, -, h⟩ := bind_eq_ok.1 h
    obtain ⟨c, hc, h⟩ := bind_eq_ok.1 h
    obtain ⟨_, -, h⟩ := bind_eq_ok.1 h
    cases h
    exact transformOf_yields hc

theorem decodeTransform_yields : Yields decodeTransform (BodyTransform.Obeys .checked) := by
  intro j b h
  unfold decodeTransform at h
  split at h
  · split at h
    · cases h
    · exact transformOfMembers_yields _ b h
  · split at h
    · cases h
    · exact transformOfItems_yields _ b h
  · cases h

end Transform

section Records

open Record.Yields

@[simp] theorem options_checked (m : MatchOptions) : m.Obeys .checked :=
  ⟨trivial, fun _ _ => trivial⟩

theorem addressRecord_yields : addressRecord.Yields (AddressTest.Obeys .checked) := by
  refine seq (seq (seq (seq (map ?_ any) any) stringsField_yields) stringsField_yields) any
  intro _ _ options _ _ hh _ hk _ _
  exact ⟨options_checked options, hh, hk, trivial⟩

theorem envelopeRecord_yields : envelopeRecord.Yields (EnvelopeTest.Obeys .checked) := by
  refine seq (seq (seq (seq (map ?_ any) any) stringsField_yields) stringsField_yields) any
  intro _ _ options _ _ hp _ hk _ _
  exact ⟨options_checked options, hp, hk, trivial⟩

theorem headerRecord_yields : headerRecord.Yields (HeaderTest.Obeys .checked) := by
  refine seq (seq (seq (map ?_ any) stringsField_yields) stringsField_yields) any
  intro options _ _ hh _ hk _ _
  exact ⟨options_checked options, hh, hk, trivial⟩

theorem sizeRecord_yields : sizeRecord.Yields (SizeTest.Obeys .checked) :=
  fun _ _ _ => ⟨⟨trivial, trivial⟩, trivial⟩

theorem bodyRecord_yields : bodyRecord.Yields (BodyTest.Obeys .checked) := by
  refine seq (seq (seq (map ?_ (optional decodeTransform_yields)) any) stringsField_yields) any
  intro _ hb options _ _ hk _ _
  exact ⟨hb, options_checked options, hk, trivial⟩

theorem dateRecord_yields : dateRecord.Yields (DateTest.Obeys .checked) := by
  refine seq (seq (seq (seq (seq (seq (map ?_ any) any) any) any) any) stringsField_yields) any
  intro _ _ _ _ options _ _ _ _ _ _ hk _ _
  exact ⟨trivial, fun _ _ => trivial, options_checked options, trivial, trivial, hk, trivial⟩

theorem currentDateRecord_yields : currentDateRecord.Yields (CurrentDateTest.Obeys .checked) := by
  refine seq (seq (seq (seq (map ?_ any) any) any) stringsField_yields) any
  intro _ _ options _ _ _ _ hk _ _
  exact ⟨fun _ _ => trivial, options_checked options, trivial, hk, trivial⟩

theorem hasFlagRecord_yields : hasFlagRecord.Yields (HasFlagTest.Obeys .checked) := by
  refine seq (seq (seq (map ?_ any) optionalStrings_yields) stringsField_yields) any
  intro options _ _ hn _ hf _ _
  exact ⟨options_checked options, hn, hf, trivial⟩

theorem stringTestRecord_yields : stringTestRecord.Yields (StringTest.Obeys .checked) := by
  refine seq (seq (seq (map ?_ any) stringsField_yields) stringsField_yields) any
  intro options _ _ hs _ hk _ _
  exact ⟨options_checked options, hs, hk, trivial⟩

theorem duplicateRecord_yields : duplicateRecord.Yields (DuplicateTest.Obeys .checked) :=
  fun _ _ _ => ⟨trivial, fun _ _ => trivial, fun _ _ => trivial, fun _ _ => trivial,
    fun _ _ => ⟨trivial, trivial⟩, trivial⟩

theorem requireRecord_yields : requireRecord.Yields (RequireCommand.Obeys .checked) := by
  refine seq (map ?_ (field (Json.Yields.any.checked fun _ _ => checkCapabilities_eq_ok.1))) any
  intro _ hc _ _
  exact ⟨hc.1, trivial⟩

theorem keepRecord_yields : keepRecord.Yields (KeepCommand.Obeys .checked) := by
  refine seq (map ?_ optionalStrings_yields) any
  intro _ hf _ _
  exact ⟨hf, trivial⟩

theorem fileIntoRecord_yields : fileIntoRecord.Yields (FileIntoCommand.Obeys .checked) := by
  refine seq (seq (seq (seq (map ?_ any) any) any) optionalStrings_yields) any
  intro _ _ _ _ _ _ _ hf _ _
  exact ⟨trivial, hf, trivial⟩

theorem vacationRecord_yields : vacationRecord.Yields (VacationCommand.Obeys .checked) := by
  refine seq (seq (seq (seq (seq (seq (seq (seq (map ?_ any) any) any) any) any)
    optionalStrings_yields) any) any) any
  intro _ _ _ _ _ _ _ _ _ _ _ ha _ _ _ _ _ _
  exact ⟨trivial, trivial, fun _ _ => ⟨trivial, trivial⟩, fun _ _ => ⟨trivial, trivial⟩,
    fun _ _ => trivial, fun _ _ => trivial, ha, fun _ _ => trivial, trivial⟩

theorem flagRecord_yields : flagRecord.Yields (FlagCommand.Obeys .checked) := by
  refine seq (seq (seq (map ?_ any) any) stringsField_yields) any
  intro _ _ _ _ _ hf _ _
  exact ⟨fun _ _ => trivial, hf, trivial⟩

theorem notifyRecord_yields : notifyRecord.Yields (NotifyCommand.Obeys .checked) := by
  refine seq (seq (seq (seq (seq (map ?_ any) any) any) optionalStrings_yields) any) any
  intro _ _ _ _ _ _ _ ho _ _ _ _
  exact ⟨trivial, fun _ _ => trivial, ho, fun _ _ => trivial, trivial⟩

end Records

section Tests

open Record.Yields

variable {test : TreeDecoder Test} {argument : TreeDecoder Argument}

theorem testsField_yields {what : String} (h : Yields test (Test.Obeys .checked)) :
    (testsField what test).Yields
      fun ts => TreeLaw.checked.tests ts ∧ TestsObey .checked ts := by
  refine field fun j ts ho => ?_
  obtain ⟨hne, ht⟩ := h.list.checked (fun _ _ => checkTests_eq_ok.1) j ts ho
  exact ⟨hne, testsObey_iff.2 ht⟩

theorem argumentsField_yields (h : Yields argument (Argument.Obeys .checked)) :
    (argumentsField argument).Yields (ArgumentsObey .checked) :=
  default (fun j as ho => argumentsObey_iff.2 (h.list j as ho)) trivial

theorem testOf_yields (ht : Yields test (Test.Obeys .checked))
    (ha : Yields argument (Argument.Obeys .checked)) (k : TestKind) :
    Yields (testOf test argument k) (Test.Obeys .checked) := by
  cases k with
  | always | never => exact decode (map (fun _ _ => trivial) any)
  | negation =>
    refine decode (seq (map ?_ (field ht)) any)
    intro _ ho _ _
    exact ⟨ho, trivial⟩
  | allOf | anyOf =>
    refine decode (seq (map ?_ (testsField_yields ht)) any)
    intro _ ho _ _
    exact ⟨ho.1, ho.2, trivial⟩
  | address => exact decode (map (fun _ h => h) addressRecord_yields)
  | header => exact decode (map (fun _ h => h) headerRecord_yields)
  | envelope => exact decode (map (fun _ h => h) envelopeRecord_yields)
  | size => exact decode (map (fun _ h => h) sizeRecord_yields)
  | body => exact decode (map (fun _ h => h) bodyRecord_yields)
  | date => exact decode (map (fun _ h => h) dateRecord_yields)
  | currentDate => exact decode (map (fun _ h => h) currentDateRecord_yields)
  | hasFlag => exact decode (map (fun _ h => h) hasFlagRecord_yields)
  | string => exact decode (map (fun _ h => h) stringTestRecord_yields)
  | duplicate => exact decode (map (fun _ h => h) duplicateRecord_yields)
  | headerExists | ihave =>
    refine decode (seq (map ?_ stringsField_yields) any)
    intro _ ho _ _
    exact ⟨ho, trivial⟩
  | generic =>
    have hname := Json.Yields.any.checked (d := decodeString) fun _ _ => checkTestName_eq_ok.1
    refine decode (seq (seq (map ?_ (field hname)) (argumentsField_yields ha)) any)
    intro _ hn _ ho _ _
    exact ⟨hn.1, trivial, ho, trivial⟩

theorem argumentOf_yields (ht : Yields test (Test.Obeys .checked)) (k : ArgumentKind) :
    Yields (argumentOf test k) (Argument.Obeys .checked) := by
  cases k with
  | tag =>
    have hname := Json.Yields.any.checked (d := decodeString) fun _ _ => checkIdentifier_eq_ok.1
    refine decode (seq (map ?_ (field hname)) any)
    intro _ hn _ _
    exact ⟨hn.1, trivial⟩
  | number => exact decode (map (fun _ _ => ⟨trivial, trivial⟩) any)
  | string => exact decode (map (fun _ _ => trivial) any)
  | strings =>
    intro ms a h
    obtain ⟨l, hl, rfl⟩ := map_eq_ok.1 h
    exact decodeStringList_yields ms l hl
  | tests =>
    refine decode (seq (map ?_ (testsField_yields ht)) any)
    intro _ ho _ _
    exact ⟨ho.1, ho.2, trivial⟩

theorem testDecoder_yields (fuel : Nat) :
    Yields (testDecoder fuel) (Test.Obeys .checked)
      ∧ Yields (argumentDecoder fuel) (Argument.Obeys .checked) := by
  induction fuel with
  | zero => exact ⟨.never, .never⟩
  | succ fuel ih =>
    exact ⟨.tagged (testOf_yields ih.1 ih.2), .tagged (argumentOf_yields ih.1)⟩

theorem decodeInnerTest_yields : Yields decodeInnerTest (Test.Obeys .checked) :=
  fun j => (testDecoder_yields (fuelFor j)).1 j

theorem decodeInnerArgument_yields : Yields decodeInnerArgument (Argument.Obeys .checked) :=
  fun j => (testDecoder_yields (fuelFor j)).2 j

end Tests

section Commands

open Record.Yields

variable {block : TreeDecoder Block} {link : TreeDecoder Chain}

theorem chainField_yields (h : Yields link (Chain.Obeys .checked)) :
    (chainField link).Yields (Chain.Obeys .checked) := by
  refine map (fun chain hc => ?_) (optional h)
  cases chain with
  | none => trivial
  | some c => exact hc c rfl

theorem commandOf_yields (hb : Yields block (Block.Obeys .checked))
    (hl : Yields link (Chain.Obeys .checked)) (k : CommandKind) :
    Yields (commandOf block link k) (Command.Obeys .checked) := by
  cases k with
  | require => exact decode (map (fun _ h => h) requireRecord_yields)
  | ifTest =>
    refine decode (seq (seq (seq (map ?_ (field decodeInnerTest_yields)) (field hb))
      (chainField_yields hl)) any)
    intro _ ht _ hb _ hc _ _
    exact ⟨ht, hb, hc, trivial⟩
  | stop | discard => exact decode (map (fun _ _ => trivial) any)
  | keep => exact decode (map (fun _ h => h) keepRecord_yields)
  | fileInto => exact decode (map (fun _ h => h) fileIntoRecord_yields)
  | redirect | reject => exact decode (map (fun _ _ => ⟨trivial, trivial⟩) any)
  | setVariable => exact decode (map (fun _ _ => ⟨trivial, trivial, trivial⟩) any)
  | vacation => exact decode (map (fun _ h => h) vacationRecord_yields)
  | flag => exact decode (map (fun _ h => h) flagRecord_yields)
  | notify => exact decode (map (fun _ h => h) notifyRecord_yields)
  | generic =>
    have hname := Json.Yields.any.checked (d := decodeString) fun _ _ => checkCommandName_eq_ok.1
    refine decode (seq (seq (seq (map ?_ (field hname))
      (argumentsField_yields decodeInnerArgument_yields)) (optional hb)) any)
    intro _ hn _ ha body hb _ _
    cases body with
    | none => exact ⟨hn.1, trivial, ha, trivial⟩
    | some b => exact ⟨hn.1, trivial, ha, hb b rfl, trivial⟩

theorem linkOf_yields (hb : Yields block (Block.Obeys .checked))
    (hl : Yields link (Chain.Obeys .checked)) (k : LinkKind) :
    Yields (linkOf block link k) (Chain.Obeys .checked) := by
  cases k with
  | elsif =>
    refine decode (seq (seq (seq (map ?_ (field decodeInnerTest_yields)) (field hb))
      (chainField_yields hl)) any)
    intro _ ht _ hb _ hc _ _
    exact ⟨ht, hb, hc, trivial⟩
  | otherwise =>
    refine decode (seq (map ?_ (field hb)) any)
    intro _ hb _ _
    exact ⟨hb, trivial⟩

theorem blockRecord_yields {command : TreeDecoder Command}
    (h : Yields command (Command.Obeys .checked)) :
    (blockRecord command).Yields (Block.Obeys .checked) := by
  refine seq (map ?_ (field h.list)) any
  intro _ ho _ _
  exact ⟨commandsObey_iff.2 ho, trivial⟩

theorem commandDecoder_yields (fuel : Nat) :
    Yields (commandDecoder fuel) (Command.Obeys .checked)
      ∧ Yields (blockDecoder fuel) (Block.Obeys .checked)
      ∧ Yields (linkDecoder fuel) (Chain.Obeys .checked) := by
  induction fuel with
  | zero => exact ⟨.never, .never, .never⟩
  | succ fuel ih =>
    obtain ⟨hc, hb, hl⟩ := ih
    exact ⟨.tagged (commandOf_yields hb hl), decode (blockRecord_yields hc),
      .tagged (linkOf_yields hb hl)⟩

/-- A tree that is read from JSON passes every check of hand-built trees. -/
theorem decodeScript_checked {j : Json} {s : Script} (h : decodeScript j = .ok s) :
    s.Obeys .checked := by
  have hc : Yields decodeCommand (Command.Obeys .checked) := fun j =>
    have hwithin := commandDecoder_yields (fuelFor j)
    Yields.tagged (commandOf_yields hwithin.2.1 hwithin.2.2) j
  refine decode (seq (map ?_ (field hc.list)) any) j s h
  intro _ ho _ _
  exact ⟨commandsObey_iff.2 ho, trivial⟩

example : decodeScript (.array [.array [.array [.string "Stop"]]]) = .ok ⟨[.stop none], none⟩ :=
  rfl

end Commands

end Interchange

end MailSieve
