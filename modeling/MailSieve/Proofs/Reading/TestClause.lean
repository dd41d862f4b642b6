import MailSieve.Proofs.Reading.Clause
import MailSieve.Proofs.Phrase.Derivation
import MailSieve.Grammar.Test

/-! Tests of fixed shape: the parser of each keyword reads the clauses of that keyword. -/

namespace MailSieve

open Parse Phrase

variable {o : ParseOptions}

namespace Phrase

def startsArgument : Token → Bool
  | .tag _ | .number _ _ | .string _ _ | .word _ => true
  | .mark .openBracket | .mark .openParen => true
  | _ => false

/-- What may follow a test, or the arguments of a generic command. -/
def Closes (t : Token) : Prop := startsArgument t = false

theorem Closes.not_tag {t : Token} (h : Closes t) : isTag t = false := by
  cases t <;> first | rfl | cases h

theorem Closes.not_list {t : Token} (h : Closes t) : Reads.startsList t = false := by
  cases t with
  | mark m => cases m <;> first | rfl | cases h
  | _ => first | rfl | cases h

/-- A location-free test that has this clause and no tags that exclude each other. -/
def TestClause (k : TestKeyword) (c : Clause) (t : Test) : Prop :=
  t.clause? = some (k, c) ∧ t.location = none ∧ t.Obeys .readable

end Phrase

def TagUses.above? (uses : TagUses) : Option Bool :=
  if uses.isEmpty then none else some (uses.has "over")

def Parse.sizeRest (start : Position) : Option Bool → Parse Test
  | none => do
    note (.literal ":over")
    note (.literal ":under")
    fail
  | some above => do
    let size ← number
    pure (.size ⟨above, size, ← span start⟩)

namespace Reads

theorem alwaysTest (ho : o.locations = false) (start : Position) :
    Reads o (span start >>= fun l => pure (Test.always l)) (Leaf [] (TestClause .always))
      fun _ => Closes := by
  refine (untagged (testEnd ho start Test.always)).leaf fun c t => ⟨?_, ?_⟩
  · rintro ⟨_, rfl, rfl, rfl⟩
    exact ⟨rfl, rfl, by simp [Test.Obeys]⟩
  · rintro ⟨hc, hl, -⟩
    cases t with
    | always l =>
      cases hc
      cases hl
      exact ⟨_, rfl, rfl, rfl⟩
    | _ => cases hc

theorem neverTest (ho : o.locations = false) (start : Position) :
    Reads o (span start >>= fun l => pure (Test.never l)) (Leaf [] (TestClause .never))
      fun _ => Closes := by
  refine (untagged (testEnd ho start Test.never)).leaf fun c t => ⟨?_, ?_⟩
  · rintro ⟨_, rfl, rfl, rfl⟩
    exact ⟨rfl, rfl, by simp [Test.Obeys]⟩
  · rintro ⟨hc, hl, -⟩
    cases t with
    | never l =>
      cases hc
      cases hl
      exact ⟨_, rfl, rfl, rfl⟩
    | _ => cases hc

theorem addressTest (ho : o.locations = false) (start : Position) :
    Reads o (addressTest start) (Leaf [] (TestClause .address)) fun _ => Closes := by
  refine (slotThen (K := Closes) ho Shape.address (by decide) (fun a =>
    stringsThen ho fun headers => stringsThen ho fun keys =>
    testEnd ho start fun l => Test.address ⟨a.1, a.2, headers, keys, l⟩)
    Closes.not_tag).leaf fun c t => ⟨?_, ?_⟩
  · rintro ⟨a, _, rfl, ha, headers, _, rfl, keys, _, rfl, rfl, rfl⟩
    exact ⟨rfl, rfl, (AddressTest.obeys_readable _).2 ((Shape.address_apart a).1 ha)⟩
  · rintro ⟨hc, hl, ht⟩
    cases t with
    | address t =>
      obtain ⟨part, options, headers, keys, l⟩ := t
      cases hc
      cases hl
      have ha := (Shape.address_apart (part, options)).2 ((AddressTest.obeys_readable _).1 ht)
      exact ⟨(part, options), _, rfl, ha, headers, _, rfl, keys, _, rfl, rfl, rfl⟩
    | _ => cases hc

theorem envelopeTest (ho : o.locations = false) (start : Position) :
    Reads o (envelopeTest start) (Leaf [] (TestClause .envelope)) fun _ => Closes := by
  refine (slotThen (K := Closes) ho Shape.address (by decide) (fun a =>
    stringsThen ho fun parts => stringsThen ho fun keys =>
    testEnd ho start fun l => Test.envelope ⟨a.1, a.2, parts, keys, l⟩)
    Closes.not_tag).leaf fun c t => ⟨?_, ?_⟩
  · rintro ⟨a, _, rfl, ha, parts, _, rfl, keys, _, rfl, rfl, rfl⟩
    exact ⟨rfl, rfl, (EnvelopeTest.obeys_readable _).2 ((Shape.address_apart a).1 ha)⟩
  · rintro ⟨hc, hl, ht⟩
    cases t with
    | envelope t =>
      obtain ⟨part, options, parts, keys, l⟩ := t
      cases hc
      cases hl
      have ha := (Shape.address_apart (part, options)).2 ((EnvelopeTest.obeys_readable _).1 ht)
      exact ⟨(part, options), _, rfl, ha, parts, _, rfl, keys, _, rfl, rfl, rfl⟩
    | _ => cases hc

theorem headerTest (ho : o.locations = false) (start : Position) :
    Reads o (headerTest start) (Leaf [] (TestClause .header)) fun _ => Closes := by
  refine (slotThen (K := Closes) ho Shape.matching (by decide) (fun options =>
    stringsThen ho fun headers => stringsThen ho fun keys =>
    testEnd ho start fun l => Test.header ⟨options, headers, keys, l⟩)
    Closes.not_tag).leaf fun c t => ⟨?_, ?_⟩
  · rintro ⟨a, _, rfl, ha, headers, _, rfl, keys, _, rfl, rfl, rfl⟩
    exact ⟨rfl, rfl, (HeaderTest.obeys_readable _).2 ((Slot.options_apart _ a).1 ha)⟩
  · rintro ⟨hc, hl, ht⟩
    cases t with
    | header t =>
      obtain ⟨options, headers, keys, l⟩ := t
      cases hc
      cases hl
      have ha :=
        (Slot.options_apart Shape.matches_matching _).2 ((HeaderTest.obeys_readable _).1 ht)
      exact ⟨options, _, rfl, ha, headers, _, rfl, keys, _, rfl, rfl, rfl⟩
    | _ => cases hc

theorem existsTest (ho : o.locations = false) (start : Position) :
    Reads o (existsTest start) (Leaf [] (TestClause .headerExists)) fun _ => Closes := by
  refine (untagged (stringsThen ho fun headers =>
    testEnd ho start fun l => Test.headerExists headers l)).leaf fun c t => ⟨?_, ?_⟩
  · rintro ⟨_, rfl, headers, _, rfl, rfl, rfl⟩
    exact ⟨rfl, rfl, by simp [Test.Obeys]⟩
  · rintro ⟨hc, hl, -⟩
    cases t with
    | headerExists headers l =>
      cases hc
      cases hl
      exact ⟨_, rfl, headers, _, rfl, rfl, rfl⟩
    | _ => cases hc

theorem ihaveTest (ho : o.locations = false) (start : Position) :
    Reads o (ihaveTest start) (Leaf [] (TestClause .ihave)) fun _ => Closes := by
  refine (untagged (stringsThen ho fun capabilities =>
    testEnd ho start fun l => Test.ihave capabilities l)).leaf fun c t => ⟨?_, ?_⟩
  · rintro ⟨_, rfl, capabilities, _, rfl, rfl, rfl⟩
    exact ⟨rfl, rfl, by simp [Test.Obeys]⟩
  · rintro ⟨hc, hl, -⟩
    cases t with
    | ihave capabilities l =>
      cases hc
      cases hl
      exact ⟨_, rfl, capabilities, _, rfl, rfl, rfl⟩
    | _ => cases hc

theorem bodyTest (ho : o.locations = false) (start : Position) :
    Reads o (bodyTest start) (Leaf [] (TestClause .body)) fun _ => Closes := by
  refine (slotThen (K := Closes) ho Shape.body (by decide) (fun a => stringsThen ho fun keys =>
    testEnd ho start fun l => Test.body ⟨a.1, a.2, keys, l⟩)
    Closes.not_tag).leaf fun c t => ⟨?_, ?_⟩
  · rintro ⟨a, _, rfl, ha, keys, _, rfl, rfl, rfl⟩
    exact ⟨rfl, rfl, (BodyTest.obeys_readable _).2 ((Shape.body_apart a).1 ha)⟩
  · rintro ⟨hc, hl, ht⟩
    cases t with
    | body t =>
      obtain ⟨transform, options, keys, l⟩ := t
      cases hc
      cases hl
      have ha := (Shape.body_apart (transform, options)).2 ((BodyTest.obeys_readable _).1 ht)
      exact ⟨(transform, options), _, rfl, ha, keys, _, rfl, rfl, rfl⟩
    | _ => cases hc

theorem dateTest (ho : o.locations = false) (start : Position) :
    Reads o (dateTest start) (Leaf [] (TestClause .date)) fun _ => Closes := by
  refine (slotThen (K := Closes) ho Shape.date (by decide) (fun a =>
    stringThen ho fun header => stringThen ho fun part => stringsThen ho fun keys =>
    testEnd ho start fun l => Test.date ⟨a.1.1, a.1.2, a.2, header, part, keys, l⟩)
    Closes.not_tag).leaf fun c t => ⟨?_, ?_⟩
  · rintro ⟨a, _, rfl, ha, header, _, rfl, part, _, rfl, keys, _, rfl, rfl, rfl⟩
    exact ⟨rfl, rfl, (DateTest.obeys_readable _).2 ((Shape.date_apart a).1 ha)⟩
  · rintro ⟨hc, hl, ht⟩
    cases t with
    | date t =>
      obtain ⟨zone, originalZone, options, header, part, keys, l⟩ := t
      cases hc
      cases hl
      have ha :=
        (Shape.date_apart ((zone, originalZone), options)).2 ((DateTest.obeys_readable _).1 ht)
      exact ⟨((zone, originalZone), options), _, rfl, ha, header, _, rfl, part, _, rfl, keys, _,
        rfl, rfl, rfl⟩
    | _ => cases hc

theorem currentDateTest (ho : o.locations = false) (start : Position) :
    Reads o (currentDateTest start) (Leaf [] (TestClause .currentDate)) fun _ => Closes := by
  refine (slotThen (K := Closes) ho Shape.currentDate (by decide) (fun a =>
    stringThen ho fun part => stringsThen ho fun keys =>
    testEnd ho start fun l => Test.currentDate ⟨a.1, a.2, part, keys, l⟩)
    Closes.not_tag).leaf fun c t => ⟨?_, ?_⟩
  · rintro ⟨a, _, rfl, ha, part, _, rfl, keys, _, rfl, rfl, rfl⟩
    exact ⟨rfl, rfl, (CurrentDateTest.obeys_readable _).2 ((Shape.currentDate_apart a).1 ha)⟩
  · rintro ⟨hc, hl, ht⟩
    cases t with
    | currentDate t =>
      obtain ⟨zone, options, part, keys, l⟩ := t
      cases hc
      cases hl
      have ha :=
        (Shape.currentDate_apart (zone, options)).2 ((CurrentDateTest.obeys_readable _).1 ht)
      exact ⟨(zone, options), _, rfl, ha, part, _, rfl, keys, _, rfl, rfl, rfl⟩
    | _ => cases hc

theorem stringTest (ho : o.locations = false) (start : Position) :
    Reads o (stringTest start) (Leaf [] (TestClause .string)) fun _ => Closes := by
  refine (slotThen (K := Closes) ho Shape.matching (by decide) (fun options =>
    stringsThen ho fun source => stringsThen ho fun keys =>
    testEnd ho start fun l => Test.string ⟨options, source, keys, l⟩)
    Closes.not_tag).leaf fun c t => ⟨?_, ?_⟩
  · rintro ⟨a, _, rfl, ha, source, _, rfl, keys, _, rfl, rfl, rfl⟩
    exact ⟨rfl, rfl, (StringTest.obeys_readable _).2 ((Slot.options_apart _ a).1 ha)⟩
  · rintro ⟨hc, hl, ht⟩
    cases t with
    | string t =>
      obtain ⟨options, source, keys, l⟩ := t
      cases hc
      cases hl
      have ha :=
        (Slot.options_apart Shape.matches_matching _).2 ((StringTest.obeys_readable _).1 ht)
      exact ⟨options, _, rfl, ha, source, _, rfl, keys, _, rfl, rfl, rfl⟩
    | _ => cases hc

theorem duplicateTest (ho : o.locations = false) (start : Position) :
    Reads o (duplicateTest start) (Leaf [] (TestClause .duplicate)) fun _ => Closes := by
  refine (slotThen (K := Closes) ho Shape.duplicate (by decide) (fun a =>
    testEnd ho start fun l => Test.duplicate ⟨a.1.1.1, a.1.1.2.1, a.1.1.2.2, a.1.2, a.2, l⟩)
    Closes.not_tag).leaf fun c t => ⟨?_, ?_⟩
  · rintro ⟨a, _, rfl, ha, rfl, rfl⟩
    exact ⟨rfl, rfl, (DuplicateTest.obeys_readable _).2 ((Shape.duplicate_apart a).1 ha)⟩
  · rintro ⟨hc, hl, ht⟩
    cases t with
    | duplicate t =>
      obtain ⟨handle, header, uniqueId, seconds, last, l⟩ := t
      cases hc
      cases hl
      exact ⟨(((handle, (header, uniqueId)), seconds), last), _, rfl,
        (Shape.duplicate_apart _).2 ((DuplicateTest.obeys_readable _).1 ht), rfl, rfl⟩
    | _ => cases hc

theorem hasFlagTest (ho : o.locations = false) (start : Position) :
    Reads o (hasFlagTest start) (Leaf [] (TestClause .hasFlag)) fun _ => Closes := by
  have second (options : MatchOptions) (first : StringList) :
      Reads o
        (isAtStringList >>= fun b =>
          if b then do
            let flags ← Parse.stringList
            pure (Test.hasFlag ⟨options, some first, flags, ← span start⟩)
          else do pure (Test.hasFlag ⟨options, none, first, ← span start⟩))
        (Rest [] fun ps t =>
          (∃ flags, ps = [.strings flags] ∧ t = .hasFlag ⟨options, some first, flags, none⟩)
            ∨ ps = [] ∧ t = .hasFlag ⟨options, none, first, none⟩)
        fun _ => Closes := by
    refine choice looks_isAtStringList
      (stringsThen ho fun flags =>
        testEnd ho start fun l => Test.hasFlag ⟨options, some first, flags, l⟩)
      (testEnd ho start fun l => Test.hasFlag ⟨options, none, first, l⟩) ?_ ?_ ?_
    · intro ts t h
      exact h.imp fun ps t ⟨flags, qs, hps, hqs, ht⟩ => .inl ⟨flags, hqs ▸ hps, ht⟩
    · intro ts t h
      exact h.imp fun ps t => .inr
    · rintro _ _ t ⟨us, ps, rfl, hs, ⟨flags, rfl, rfl⟩ | ⟨rfl, rfl⟩⟩ ht
      · refine .inl ⟨?_, us, _, rfl, hs, flags, [], rfl, rfl, rfl⟩
        obtain ⟨us, vs, rfl, hp, hs⟩ := sequence_cons.1 hs
        rw [sequence_nil.1 hs, List.append_nil, List.append_nil]
        exact (positionalPhrase_strings.1 hp).starts t
      · refine .inr ⟨?_, us, _, rfl, hs, rfl, rfl⟩
        rw [sequence_nil.1 hs]
        exact ht.not_list
  refine (slotThen (K := Closes) ho Shape.matching (by decide) (fun options =>
    stringsThen ho fun first => second options first) Closes.not_tag).leaf fun c t => ⟨?_, ?_⟩
  · rintro ⟨a, _, rfl, ha, first, _, rfl, ⟨flags, rfl, rfl⟩ | ⟨rfl, rfl⟩⟩
    · exact ⟨rfl, rfl, (HasFlagTest.obeys_readable _).2 ((Slot.options_apart _ a).1 ha)⟩
    · exact ⟨rfl, rfl, (HasFlagTest.obeys_readable _).2 ((Slot.options_apart _ a).1 ha)⟩
  · rintro ⟨hc, hl, ht⟩
    cases t with
    | hasFlag t =>
      obtain ⟨options, variableNames, flags, l⟩ := t
      cases hc
      cases hl
      have ha :=
        (Slot.options_apart Shape.matches_matching _).2 ((HasFlagTest.obeys_readable _).1 ht)
      cases variableNames with
      | none => exact ⟨options, _, rfl, ha, flags, _, rfl, .inr ⟨rfl, rfl⟩⟩
      | some names => exact ⟨options, _, rfl, ha, names, _, rfl, .inl ⟨flags, rfl, rfl⟩⟩
    | _ => cases hc

theorem sizeTest (ho : o.locations = false) (start : Position) :
    Reads o (sizeTest start) (Leaf [] (TestClause .size)) fun _ => Closes := by
  have hgot (ss : List Setting) (a : Option Bool) :
      (∃ uses : TagUses, uses.Admitted TagRules.size ∧ uses.settings = ss ∧ uses.above? = a)
        ↔ (⟨Shape.size.settings a, [], false⟩ : Clause).Arranges ss ∧ Shape.size.apart a := by
    rw [Clause.arranges_false, ← Shape.size.admitted_iff (by decide)]
    refine exists_congr fun uses => and_congr_right fun hu => ?_
    rw [Shape.size_got hu, TagUses.above?]
  have hrest a : Reads o (sizeRest start a)
      (Rest [] fun ps t => ∃ above size, a = some above ∧ ps = [.number size]
        ∧ t = .size ⟨above, size, none⟩) fun _ => Closes := by
    cases a with
    | none =>
      refine noteThen (noteThen (never (fun _ _ _ h => fail_ok.1 h) ?_))
      rintro _ _ ⟨us, ps, rfl, hs, above, size, hn, -⟩
      cases hn
    | some above =>
      refine (numberThen ho fun size =>
        testEnd ho start fun l => Test.size ⟨above, size, l⟩).congr fun ts t => ⟨?_, ?_⟩
      · rintro ⟨us, ps, ht, hs, size, _, rfl, rfl, rfl⟩
        exact ⟨us, _, ht, hs, above, size, rfl, rfl, rfl⟩
      · rintro ⟨us, ps, ht, hs, above, size, ha, rfl, rfl⟩
        cases ha
        exact ⟨us, _, ht, hs, size, [], rfl, rfl, rfl⟩
  have hrun : Parse.sizeTest start
      = Parse.tags TagRules.size >>= fun uses => sizeRest start uses.above? := by
    rw [Parse.sizeTest]
    refine congrArg _ (funext fun uses => ?_)
    cases uses <;> rfl
  rw [hrun]
  refine (tagsThen (K := Closes) ho hgot hrest Closes.not_tag).leaf fun c t => ⟨?_, ?_⟩
  · rintro ⟨_, _, rfl, -, above, size, rfl, rfl, rfl⟩
    exact ⟨rfl, rfl, by simp [Test.Obeys, SizeTest.Obeys]⟩
  · rintro ⟨hc, hl, -⟩
    cases t with
    | size t =>
      obtain ⟨above, size, l⟩ := t
      cases hc
      cases hl
      exact ⟨some above, _, rfl, trivial, above, size, rfl, rfl, rfl⟩
    | _ => cases hc

end Reads

end MailSieve
