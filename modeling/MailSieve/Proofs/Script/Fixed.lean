import MailSieve.Proofs.Phrase.Induction
import MailSieve.Proofs.Phrase.Laws
import MailSieve.Proofs.Script.Norm

/-! Trees that nothing is taken from.
`erase` leaves a tree without locations as it is, and `reduced` a tree whose quantifiers divide
their numbers. -/

namespace MailSieve

open Phrase

theorem map_eq_self {α : Type} {f : α → α} {P : α → Prop} (h : ∀ {a}, P a → f a = a) {o : Option α}
    (ho : ∀ a ∈ o, P a) : o.map f = o := by
  cases o with
  | none => rfl
  | some a => rw [Option.map_some, h (ho a rfl)]

section Bare

theorem StringLit.Obeys.erase_eq {s : StringLit} (h : s.Obeys .bare) : s.erase = s := by
  obtain ⟨value, multiline, l⟩ := s
  cases h
  rfl

theorem NumberLit.Obeys.erase_eq {n : NumberLit} (h : n.Obeys .bare) : n.erase = n := by
  obtain ⟨value, q, l⟩ := n
  cases h.2
  rfl

theorem StringList.Obeys.erase_eq {l : StringList} (h : l.Obeys .bare) : l.erase = l := by
  obtain ⟨values, l⟩ := l
  obtain ⟨-, hl, hv⟩ := h
  cases hl
  have hmap : values.map StringLit.erase = values := by
    rw [List.map_congr_left fun s hs => (hv s hs).erase_eq, List.map_id']
  rw [erase, hmap]

theorem MatchOptions.Obeys.erase_eq {o : MatchOptions} (h : o.Obeys .bare) : o.erase = o := by
  rw [erase, map_eq_self StringLit.Obeys.erase_eq h.2]

theorem BodyTransform.Obeys.erase_eq {b : BodyTransform} (h : b.Obeys .bare) : b.erase = b := by
  cases b with
  | raw | text => rfl
  | content types => rw [erase, StringList.Obeys.erase_eq h]

theorem eraseTests_eq {ts : List Test} (h : ∀ t ∈ ts, t.Obeys .bare → t.erase = t)
    (hb : TestsObey .bare ts) : ts.map Test.erase = ts := by
  rw [testsObey_iff] at hb
  rw [List.map_congr_left fun t ht => h t ht (hb t ht), List.map_id']

theorem eraseArguments_eq {as : List Argument}
    (h : ∀ ts l, .tests ts l ∈ as → ∀ t ∈ ts, t.Obeys .bare → t.erase = t)
    (hb : ArgumentsObey .bare as) : as.map Argument.erase = as := by
  have one (a : Argument) (hm : a ∈ as) : a.erase = a := by
    have ha := argumentsObey_iff.1 hb a hm
    cases a with
    | tag name l =>
      cases ha.2
      rfl
    | number n => rw [Argument.erase, NumberLit.Obeys.erase_eq ha]
    | string s => rw [Argument.erase, StringLit.Obeys.erase_eq ha]
    | strings l => rw [Argument.erase, StringList.Obeys.erase_eq ha]
    | tests ts l =>
      obtain ⟨-, hts, hl⟩ := ha
      cases hl
      rw [Argument.erase_tests, eraseTests_eq (h ts _ hm) hts]
  rw [List.map_congr_left one, List.map_id']

theorem erase_clause {t : Test} {k : TestKeyword} {c : Clause} (h : t.clause? = some (k, c))
    (hb : t.Obeys .bare) : t.erase = t := by
  have string {s : Option StringLit} : (∀ a ∈ s, a.Obeys .bare) → s.map StringLit.erase = s :=
    map_eq_self StringLit.Obeys.erase_eq
  cases t with
  | negation | allOf | anyOf | generic => cases h
  | always | never =>
    cases hb
    rfl
  | address t =>
    obtain ⟨part, options, headers, keys, l⟩ := t
    obtain ⟨ho, hh, hk, rfl⟩ := hb
    simp only [Test.erase, AddressTest.erase, ho.erase_eq, hh.erase_eq, hk.erase_eq]
  | envelope t =>
    obtain ⟨part, options, parts, keys, l⟩ := t
    obtain ⟨ho, hp, hk, rfl⟩ := hb
    simp only [Test.erase, EnvelopeTest.erase, ho.erase_eq, hp.erase_eq, hk.erase_eq]
  | header t =>
    obtain ⟨options, headers, keys, l⟩ := t
    obtain ⟨ho, hh, hk, rfl⟩ := hb
    simp only [Test.erase, HeaderTest.erase, ho.erase_eq, hh.erase_eq, hk.erase_eq]
  | headerExists | ihave =>
    obtain ⟨hl, rfl⟩ := hb
    simp only [Test.erase, hl.erase_eq]
  | size t =>
    obtain ⟨above, size, l⟩ := t
    obtain ⟨hs, rfl⟩ := hb
    simp only [Test.erase, SizeTest.erase, hs.erase_eq]
  | body t =>
    obtain ⟨transform, options, keys, l⟩ := t
    obtain ⟨ht, ho, hk, rfl⟩ := hb
    simp only [Test.erase, BodyTest.erase, map_eq_self BodyTransform.Obeys.erase_eq ht,
      ho.erase_eq, hk.erase_eq]
  | date t =>
    obtain ⟨zone, originalZone, options, header, part, keys, l⟩ := t
    obtain ⟨-, hz, ho, hh, hp, hk, rfl⟩ := hb
    simp only [Test.erase, DateTest.erase, string hz, ho.erase_eq, hh.erase_eq, hp.erase_eq,
      hk.erase_eq]
  | currentDate t =>
    obtain ⟨zone, options, part, keys, l⟩ := t
    obtain ⟨hz, ho, hp, hk, rfl⟩ := hb
    simp only [Test.erase, CurrentDateTest.erase, string hz, ho.erase_eq, hp.erase_eq, hk.erase_eq]
  | hasFlag t =>
    obtain ⟨options, names, flags, l⟩ := t
    obtain ⟨ho, hn, hf, rfl⟩ := hb
    simp only [Test.erase, HasFlagTest.erase, ho.erase_eq,
      map_eq_self StringList.Obeys.erase_eq hn, hf.erase_eq]
  | string t =>
    obtain ⟨options, source, keys, l⟩ := t
    obtain ⟨ho, hs, hk, rfl⟩ := hb
    simp only [Test.erase, StringTest.erase, ho.erase_eq, hs.erase_eq, hk.erase_eq]
  | duplicate t =>
    obtain ⟨handle, header, uniqueId, seconds, last, l⟩ := t
    obtain ⟨-, ha, hh, hu, hs, rfl⟩ := hb
    simp only [Test.erase, DuplicateTest.erase, string ha, string hh, string hu,
      map_eq_self NumberLit.Obeys.erase_eq hs]

theorem Test.erase_eq (t : Test) : t.Obeys .bare → t.erase = t := by
  refine TestCases.test (P := fun t => t.Obeys .bare → t.erase = t) ⟨?_, ?_, ?_, ?_, ?_⟩ t
  · exact erase_clause
  · rintro t l ih ⟨ht, rfl⟩
    rw [Test.erase, ih ht]
  · rintro ts l ih ⟨-, hts, rfl⟩
    rw [Test.erase_allOf, eraseTests_eq ih hts]
  · rintro ts l ih ⟨-, hts, rfl⟩
    rw [Test.erase_anyOf, eraseTests_eq ih hts]
  · rintro name as l ih ⟨-, -, has, rfl⟩
    rw [Test.erase_generic, eraseArguments_eq ih has]

theorem erase_commandClause {c : Command} {k : CommandKeyword} {cl : Clause}
    (h : c.clause? = some (k, cl)) (hb : c.Obeys .bare) : c.erase = c := by
  have string {s : Option StringLit} : (∀ a ∈ s, a.Obeys .bare) → s.map StringLit.erase = s :=
    map_eq_self StringLit.Obeys.erase_eq
  have strings {l : Option StringList} : (∀ a ∈ l, a.Obeys .bare) → l.map StringList.erase = l :=
    map_eq_self StringList.Obeys.erase_eq
  have number {n : Option NumberLit} : (∀ a ∈ n, a.Obeys .bare) → n.map NumberLit.erase = n :=
    map_eq_self NumberLit.Obeys.erase_eq
  cases c with
  | ifTest | generic | genericBlock => cases h
  | stop | discard =>
    cases hb
    rfl
  | require c =>
    obtain ⟨capabilities, l⟩ := c
    cases hb.2
    rfl
  | keep c =>
    obtain ⟨flags, l⟩ := c
    obtain ⟨hf, rfl⟩ := hb
    simp only [Command.erase, KeepCommand.erase, strings hf]
  | fileInto c =>
    obtain ⟨mailbox, copy, create, flags, l⟩ := c
    obtain ⟨hm, hf, rfl⟩ := hb
    simp only [Command.erase, FileIntoCommand.erase, hm.erase_eq, strings hf]
  | redirect c =>
    obtain ⟨address, copy, l⟩ := c
    obtain ⟨ha, rfl⟩ := hb
    simp only [Command.erase, RedirectCommand.erase, ha.erase_eq]
  | reject c =>
    obtain ⟨reason, l⟩ := c
    obtain ⟨hr, rfl⟩ := hb
    simp only [Command.erase, RejectCommand.erase, hr.erase_eq]
  | setVariable c =>
    obtain ⟨modifiers, name, value, l⟩ := c
    obtain ⟨hn, hv, rfl⟩ := hb
    simp only [Command.erase, SetCommand.erase, hn.erase_eq, hv.erase_eq]
  | vacation c =>
    obtain ⟨reason, days, seconds, subject, sender, addresses, mime, handle, l⟩ := c
    obtain ⟨-, hr, hd, hs, hu, hf, ha, hh, rfl⟩ := hb
    simp only [Command.erase, VacationCommand.erase, hr.erase_eq, number hd, number hs, string hu,
      string hf, strings ha, string hh]
  | flag c =>
    obtain ⟨action, name, flags, l⟩ := c
    obtain ⟨hn, hf, rfl⟩ := hb
    simp only [Command.erase, FlagCommand.erase, string hn, hf.erase_eq]
  | notify c =>
    obtain ⟨method, sender, importance, options, message, l⟩ := c
    obtain ⟨hm, hs, ho, hg, rfl⟩ := hb
    simp only [Command.erase, NotifyCommand.erase, hm.erase_eq, string hs, strings ho, string hg]

theorem eraseCommands_eq {cs : List Command} (h : ∀ c ∈ cs, c.Obeys .bare → c.erase = c)
    (hb : CommandsObey .bare cs) : cs.map Command.erase = cs := by
  rw [commandsObey_iff] at hb
  rw [List.map_congr_left fun c hc => h c hc (hb c hc), List.map_id']

theorem commandCases_erase : CommandCases (fun c => c.Obeys .bare → c.erase = c)
    (fun b => b.Obeys .bare → b.erase = b) (fun c => c.Obeys .bare → c.erase = c) where
  clause := erase_commandClause
  ifTest := by
    rintro t b c l hb hc ⟨htb, hbb, hcb, rfl⟩
    rw [Command.erase, t.erase_eq htb, hb hbb, hc hcb]
  generic := by
    rintro name as l ⟨-, -, has, rfl⟩
    rw [Command.erase_generic, eraseArguments_eq (fun _ _ _ t _ => t.erase_eq) has]
  genericBlock := by
    rintro name as b l hb ⟨-, -, has, hbb, rfl⟩
    rw [Command.erase_genericBlock, eraseArguments_eq (fun _ _ _ t _ => t.erase_eq) has, hb hbb]
  block := by
    rintro cs l ih ⟨hcs, rfl⟩
    rw [Block.erase_mk, eraseCommands_eq ih hcs]
  done := fun _ => rfl
  elsif := by
    rintro t b c l hb hc ⟨htb, hbb, hcb, rfl⟩
    rw [Chain.erase, t.erase_eq htb, hb hbb, hc hcb]
  otherwise := by
    rintro b l hb ⟨hbb, rfl⟩
    rw [Chain.erase, hb hbb]

theorem Script.erase_eq {s : Script} (h : s.Obeys .bare) : s.erase = s := by
  obtain ⟨cs, l⟩ := s
  obtain ⟨hcs, rfl⟩ := h
  rw [erase, eraseCommands_eq_map, eraseCommands_eq (fun c _ => commandCases_erase.command c) hcs]

end Bare

section Divided

theorem NumberLit.Obeys.reduced_eq {n : NumberLit} (h : n.Obeys .divided) : n.reduced = n := by
  obtain ⟨value, _ | q, l⟩ := n
  · rfl
  · have hq : q.multiplier ∣ value.toNat := h.1 q rfl
    simp [reduced, Nat.mod_eq_zero_of_dvd hq]

theorem reduceTests_eq {ts : List Test} (h : ∀ t ∈ ts, t.Obeys .divided → t.reduced = t)
    (hd : TestsObey .divided ts) : reduceTests ts = ts := by
  rw [testsObey_iff] at hd
  rw [reduceTests_eq_map, List.map_congr_left fun t ht => h t ht (hd t ht), List.map_id']

theorem reduceArguments_eq {as : List Argument}
    (h : ∀ ts l, .tests ts l ∈ as → ∀ t ∈ ts, t.Obeys .divided → t.reduced = t)
    (hd : ArgumentsObey .divided as) : reduceArguments as = as := by
  have one (a : Argument) (hm : a ∈ as) : a.reduced = a := by
    have ha := argumentsObey_iff.1 hd a hm
    cases a with
    | number n => rw [Argument.reduced, NumberLit.Obeys.reduced_eq ha]
    | tests ts l => rw [Argument.reduced, reduceTests_eq (h ts l hm) ha.2.1]
    | _ => rfl
  rw [reduceArguments_eq_map, List.map_congr_left one, List.map_id']

theorem Test.reduced_eq (t : Test) : t.Obeys .divided → t.reduced = t := by
  refine TestCases.test (P := fun t => t.Obeys .divided → t.reduced = t) ⟨?_, ?_, ?_, ?_, ?_⟩ t
  · intro t k c h hd
    cases t with
    | negation | allOf | anyOf | generic => cases h
    | size t => rw [Test.reduced, NumberLit.Obeys.reduced_eq hd.1]
    | duplicate t =>
      obtain ⟨-, -, -, -, hs, -⟩ := hd
      rw [Test.reduced, map_eq_self NumberLit.Obeys.reduced_eq hs]
    | _ => rfl
  · intro t l ih hd
    rw [Test.reduced, ih hd.1]
  · intro ts l ih hd
    rw [Test.reduced, reduceTests_eq ih hd.2.1]
  · intro ts l ih hd
    rw [Test.reduced, reduceTests_eq ih hd.2.1]
  · intro name as l ih hd
    rw [Test.reduced, reduceArguments_eq ih hd.2.2.1]

theorem reduceCommands_eq {cs : List Command} (h : ∀ c ∈ cs, c.Obeys .divided → c.reduced = c)
    (hd : CommandsObey .divided cs) : reduceCommands cs = cs := by
  rw [commandsObey_iff] at hd
  rw [reduceCommands_eq_map, List.map_congr_left fun c hc => h c hc (hd c hc), List.map_id']

theorem commandCases_reduced : CommandCases (fun c => c.Obeys .divided → c.reduced = c)
    (fun b => b.Obeys .divided → b.reduced = b) (fun c => c.Obeys .divided → c.reduced = c) where
  clause := by
    intro c k cl h hd
    cases c with
    | ifTest | generic | genericBlock => cases h
    | vacation c =>
      obtain ⟨-, -, hd, hs, -⟩ := hd
      rw [Command.reduced, map_eq_self NumberLit.Obeys.reduced_eq hd,
        map_eq_self NumberLit.Obeys.reduced_eq hs]
    | _ => rfl
  ifTest := by
    intro t b c l hb hc hd
    rw [Command.reduced, t.reduced_eq hd.1, hb hd.2.1, hc hd.2.2.1]
  generic := by
    intro name as l hd
    rw [Command.reduced, reduceArguments_eq (fun _ _ _ t _ => t.reduced_eq) hd.2.2.1]
  genericBlock := by
    intro name as b l hb hd
    rw [Command.reduced, reduceArguments_eq (fun _ _ _ t _ => t.reduced_eq) hd.2.2.1,
      hb hd.2.2.2.1]
  block := by
    intro cs l ih hd
    rw [Block.reduced, reduceCommands_eq ih hd.1]
  done := fun _ => rfl
  elsif := by
    intro t b c l hb hc hd
    rw [Chain.reduced, t.reduced_eq hd.1, hb hd.2.1, hc hd.2.2.1]
  otherwise := by
    intro b l hb hd
    rw [Chain.reduced, hb hd.1]

theorem Script.reduced_eq {s : Script} (h : s.Obeys .divided) : s.reduced = s := by
  rw [reduced, reduceCommands_eq (fun c _ => commandCases_reduced.command c) h.1]

end Divided

end MailSieve
