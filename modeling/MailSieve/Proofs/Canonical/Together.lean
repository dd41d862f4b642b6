import MailSieve.Proofs.Canonical.Phrase
import MailSieve.Proofs.Reading.Script

/-! Tags of canonical clauses that may stand together.
What follows a tag is told by its name, so whatever settings are read at the start of the tokens of
a clause have the names of the clause's own settings. A clause that is read therefore has no tags
that exclude each other. -/

namespace MailSieve

open Phrase Canonical Parse

variable {α : Type} {rules : List TagRule} {ts us xs ys : List Token} {x y : Token}

theorem Reads.unique_open {o : ParseOptions} {p : Parse α} {G : List Token → α → Prop}
    {F : α → Token → Prop} (h : Reads o p G F) {a b : α} (ha : G ts a) (hb : G us b)
    (hfa : ∀ t, F a t) (hfb : ∀ t, F b t) (hx : xs ≠ []) (hy : ys ≠ [])
    (he : ts ++ xs = us ++ ys) : a = b ∧ ts = us := by
  obtain ⟨x, xs, rfl⟩ := List.exists_cons_of_ne_nil hx
  obtain ⟨y, ys, rfl⟩ := List.exists_cons_of_ne_nil hy
  exact h.unique ha hb (hfa x) (hfb y) he

namespace Phrase.Setting

def Ruled (rules : List TagRule) (s : Setting) : Prop :=
  ∃ r, ruleOf rules s.name = some r ∧ s.value.kind = r.value

theorem Ruled.kind_eq {s t : Setting} (hs : s.Ruled rules) (ht : t.Ruled rules)
    (hn : s.name = t.name) : s.value.kind = t.value.kind := by
  obtain ⟨r, hr, hk⟩ := hs
  obtain ⟨q, hq, hk'⟩ := ht
  rw [hn, hq] at hr
  rw [hk, hk', Option.some.inj hr]

theorem Ruled.kept {s : Setting} (h : s.Ruled rules) : s.kept.Ruled rules := by
  obtain ⟨r, hr, hk⟩ := h
  refine ⟨r, hr, hk ▸ ?_⟩
  obtain ⟨name, value⟩ := s
  cases value <;> rfl

end Phrase.Setting

theorem Slot.ruled (S : Slot rules α) (a : α) : ∀ s ∈ S.settings a, s.Ruled rules := by
  intro s hs
  obtain ⟨r, g, hr, hk, -⟩ := S.fits hs
  exact ⟨r, hr, hk⟩

theorem names_eq_of_sequence {ss tt : List Setting} (hs : Sequence SettingPhrase ts ss)
    (ht : Sequence SettingPhrase us tt) (hrs : ∀ s ∈ ss, s.Ruled rules)
    (hrt : ∀ t ∈ tt, t.Ruled rules) (hx : isTag x = false) (hy : isTag y = false)
    (he : ts ++ x :: xs = us ++ y :: ys) : ss.map Setting.name = tt.map Setting.name := by
  induction hs generalizing us tt with
  | nil =>
    cases ht with
    | nil => rfl
    | cons ht =>
      obtain ⟨-⟩ := ht
      cases he
      cases hx
  | @cons ts ts' s ss hs _ ih =>
    obtain ⟨hv⟩ := hs
    cases ht with
    | nil =>
      cases he
      cases hy
    | @cons us us' t tt ht htt =>
      obtain ⟨hw⟩ := ht
      rw [List.forall_mem_cons] at hrs hrt
      simp only [List.cons_append, List.cons.injEq, Token.tag.injEq, List.append_assoc] at he
      obtain ⟨hn, he⟩ := he
      have hkind := hrs.1.kind_eq hrt.1 hn
      have hu := (Reads.tagValue (o := ⟨false, 0⟩) rfl _).unique_open ⟨hv, rfl⟩ ⟨hw, hkind.symm⟩
        (fun _ => trivial) (fun _ => trivial) (by simp) (by simp) he
      rw [hu.2] at he
      rw [List.map_cons, List.map_cons, hn, ih htt hrs.2 hrt.2 (List.append_cancel_left he)]

def NamesApart (rules : List TagRule) (m n : String) : Prop :=
  ∀ r q, ruleOf rules m = some r → ruleOf rules n = some q → r.group ≠ q.group

theorem pairwise_apart_names {ss : List Setting} :
    ss.Pairwise (Setting.Apart rules) ↔ (ss.map Setting.name).Pairwise (NamesApart rules) :=
  (List.pairwise_map (R := NamesApart rules) (f := Setting.name)).symm

theorem pairwise_apart_iff {ss tt : List Setting}
    (h : (ss.map Setting.name).Perm (tt.map Setting.name)) :
    ss.Pairwise (Setting.Apart rules) ↔ tt.Pairwise (Setting.Apart rules) := by
  have hsymm {m n : String} (hmn : NamesApart rules m n) : NamesApart rules n m :=
    fun r q hr hq he => hmn q r hq hr he.symm
  rw [pairwise_apart_names, pairwise_apart_names]
  exact h.pairwise_iff hsymm

theorem Phrase.Clause.Arranges.perm {c : Clause} {ss : List Setting} (h : c.Arranges ss) :
    ss.Perm c.settings := by
  rw [Clause.Arranges] at h
  split at h
  · rw [h]
  · exact h

/-- A clause is read at the start of another clause's tokens only if both have tags of the same
names. -/
theorem pairwise_apart_of_clausePhrase {c d : Clause} (hc : c.Obeys .checked)
    (hcr : ∀ s ∈ c.settings, s.Ruled rules) (hdr : ∀ s ∈ d.settings, s.Ruled rules)
    (hd : ClausePhrase us d) (hx : isTag x = false) (hy : isTag y = false)
    (he : us ++ x :: xs = c.tokens ++ y :: ys) :
    d.settings.Pairwise (Setting.Apart rules) ↔ c.settings.Pairwise (Setting.Apart rules) := by
  obtain ⟨us, vs, ss, rfl, ha, hs, hp⟩ := clausePhrase_iff.1 hd
  have head {ps : List Positional} {ws : List Token} {z : Token} (zs : List Token)
      (hp : Sequence PositionalPhrase ws ps) (hz : isTag z = false) :
      ∃ w ws', ws ++ z :: zs = w :: ws' ∧ isTag w = false := by
    cases hp with
    | nil => exact ⟨z, zs, rfl, hz⟩
    | cons hp _ =>
      obtain ⟨w, ws', hw⟩ := List.exists_cons_of_ne_nil hp.ne_nil
      have ht := hp.not_tag z
      rw [hw] at ht ⊢
      exact ⟨w, _, rfl, ht⟩
  obtain ⟨v, vs', hv, hvt⟩ := head xs hp hx
  obtain ⟨w, ws, hw, hwt⟩ := head ys
    (sequence_flatMap fun p hp => positionalPhrase_tokens (hc.positionals p hp)) hy
  have hc' : Sequence SettingPhrase (c.settings.flatMap Setting.tokens)
      (c.settings.map Setting.kept) :=
    sequence_flatMap fun s hs => settingPhrase_tokens (hc.settings s hs)
  rw [Clause.tokens, List.append_assoc, List.append_assoc, hv, hw] at he
  have hnames := names_eq_of_sequence hs hc' (fun s hs => hdr s (ha.perm.mem_iff.1 hs))
    (by simpa using fun s hs => (hcr s hs).kept) hvt hwt he
  rw [List.map_map] at hnames
  refine pairwise_apart_iff ((ha.perm.map Setting.name).symm.trans ?_)
  rw [hnames]
  exact .refl _

namespace TestKeyword

def tagRules : TestKeyword → List TagRule
  | address | envelope => TagRules.address
  | header | hasFlag | string => TagRules.matching
  | size => TagRules.size
  | body => TagRules.body
  | date => TagRules.date
  | currentDate => TagRules.currentDate
  | duplicate => TagRules.duplicate
  | always | never | negation | allOf | anyOf | headerExists | ihave => []

end TestKeyword

/-- The tags of a test of fixed shape follow its rules, and may stand together if these say so. -/
theorem Test.clause_apart {t : Test} {k : TestKeyword} {c : Clause} (h : t.clause? = some (k, c)) :
    (∀ s ∈ c.settings, s.Ruled k.tagRules)
      ∧ (c.settings.Pairwise (Setting.Apart k.tagRules) ↔ t.Obeys .readable) := by
  have slot {α : Type} {rules : List TagRule} (S : Slot rules α) (a : α) {P Q : Prop}
      (hp : S.apart a ↔ P) (hq : Q ↔ P) : (∀ s ∈ S.settings a, s.Ruled rules)
        ∧ ((S.settings a).Pairwise (Setting.Apart rules) ↔ Q) :=
    ⟨S.ruled a, (S.apart_iff a).symm.trans (hp.trans hq.symm)⟩
  have untagged {rules : List TagRule} {Q : Prop} (hq : Q) :
      (∀ s ∈ ([] : List Setting), s.Ruled rules)
        ∧ (([] : List Setting).Pairwise (Setting.Apart rules) ↔ Q) :=
    ⟨by simp, iff_of_true .nil hq⟩
  cases t with
  | negation | allOf | anyOf | generic => cases h
  | address t =>
    cases h
    exact slot Shape.address (t.addressPart, t.options) (Shape.address_apart _)
      (AddressTest.obeys_readable t)
  | envelope t =>
    cases h
    exact slot Shape.address (t.addressPart, t.options) (Shape.address_apart _)
      (EnvelopeTest.obeys_readable t)
  | header t =>
    cases h
    exact slot Shape.matching t.options (Slot.options_apart _ _) (HeaderTest.obeys_readable t)
  | string t =>
    cases h
    exact slot Shape.matching t.options (Slot.options_apart _ _) (StringTest.obeys_readable t)
  | hasFlag t =>
    cases h
    exact slot Shape.matching t.options (Slot.options_apart _ _) (HasFlagTest.obeys_readable t)
  | body t =>
    cases h
    exact slot Shape.body (t.transform, t.options) (Shape.body_apart _) (BodyTest.obeys_readable t)
  | date t =>
    cases h
    exact slot Shape.date ((t.zone, t.originalZone), t.options) (Shape.date_apart _)
      (DateTest.obeys_readable t)
  | currentDate t =>
    cases h
    exact slot Shape.currentDate (t.zone, t.options) (Shape.currentDate_apart _)
      (CurrentDateTest.obeys_readable t)
  | duplicate t =>
    cases h
    exact slot Shape.duplicate (((t.handle, (t.header, t.uniqueId)), t.seconds), t.last)
      (Shape.duplicate_apart _) (DuplicateTest.obeys_readable t)
  | size t =>
    cases h
    exact slot Shape.size (some t.above) (iff_of_true trivial trivial)
      (iff_of_true (by simp [Test.Obeys, SizeTest.Obeys]) trivial)
  | always | never =>
    cases h
    exact untagged trivial
  | headerExists | ihave =>
    cases h
    exact untagged (by simp [Test.Obeys])

theorem Test.readable_of_clausePhrase {t u : Test} {k : TestKeyword} {c d : Clause}
    (ht : t.clause? = some (k, c)) (hu : u.clause? = some (k, d)) (hr : u.Obeys .readable)
    (hc : t.Obeys .checked) (hd : ClausePhrase us d) (hx : isTag x = false) (hy : isTag y = false)
    (he : us ++ x :: xs = c.tokens ++ y :: ys) : t.Obeys .readable := by
  obtain ⟨hcr, hca⟩ := Test.clause_apart ht
  obtain ⟨hdr, hda⟩ := Test.clause_apart hu
  have hco := ((Test.obeys_iff ht).1 hc).1
  rw [← hca, ← pairwise_apart_of_clausePhrase hco hcr hdr hd hx hy he, hda]
  exact hr

namespace CommandKeyword

def tagRules : CommandKeyword → List TagRule
  | keep => TagRules.keep
  | fileInto => TagRules.fileInto
  | redirect => TagRules.redirect
  | setVariable => TagRules.set
  | vacation => TagRules.vacation
  | notify => TagRules.notify
  | require | ifTest | elsif | elseBlock | stop | discard | reject | setFlag | addFlag
  | removeFlag => []

end CommandKeyword

theorem Command.clause_apart {c : Command} {k : CommandKeyword} {cl : Clause}
    (h : c.clause? = some (k, cl)) (hk : k ≠ .setVariable) :
    (∀ s ∈ cl.settings, s.Ruled k.tagRules)
      ∧ (cl.settings.Pairwise (Setting.Apart k.tagRules) ↔ c.Obeys .readable) := by
  have slot {α : Type} {rules : List TagRule} (S : Slot rules α) (a : α) {P : Prop}
      (hp : S.apart a ↔ P) : (∀ s ∈ S.settings a, s.Ruled rules)
        ∧ ((S.settings a).Pairwise (Setting.Apart rules) ↔ P) :=
    ⟨S.ruled a, (S.apart_iff a).symm.trans hp⟩
  have untagged {rules : List TagRule} {P : Prop} (hp : P) :
      (∀ s ∈ ([] : List Setting), s.Ruled rules)
        ∧ (([] : List Setting).Pairwise (Setting.Apart rules) ↔ P) :=
    ⟨by simp, iff_of_true .nil hp⟩
  cases c with
  | ifTest | generic | genericBlock => cases h
  | keep c =>
    cases h
    exact slot Shape.keep c.flags
      (iff_of_true trivial (by simp [Command.Obeys, KeepCommand.Obeys]))
  | fileInto c =>
    cases h
    exact slot Shape.fileInto ((c.copy, c.create), c.flags)
      (iff_of_true ⟨⟨trivial, trivial, trivial⟩, trivial, trivial⟩
        (by simp [Command.Obeys, FileIntoCommand.Obeys]))
  | redirect c =>
    cases h
    exact slot Shape.redirect c.copy
      (iff_of_true trivial (by simp [Command.Obeys, RedirectCommand.Obeys]))
  | vacation c =>
    cases h
    exact slot Shape.vacation
      ((((((c.days, c.seconds), c.subject), c.sender), c.addresses), c.mime), c.handle)
      ((Shape.vacation_apart _).trans (VacationCommand.obeys_readable c).symm)
  | notify c =>
    cases h
    exact slot Shape.notify (((c.sender, c.importance), c.options), c.message)
      (iff_of_true ⟨⟨⟨trivial, trivial, trivial⟩, trivial, trivial⟩, trivial, trivial⟩
        (by simp [Command.Obeys, NotifyCommand.Obeys]))
  | setVariable c =>
    cases h
    exact absurd rfl hk
  | stop | discard =>
    cases h
    exact untagged trivial
  | require c | reject c =>
    cases h
    exact untagged (by simp [Command.Obeys, RequireCommand.Obeys, RejectCommand.Obeys])
  | flag c =>
    have hflag : (Command.flag c).Obeys .readable := by simp [Command.Obeys, FlagCommand.Obeys]
    obtain ⟨⟨⟩, _, _, _⟩ := c <;> cases h <;> exact untagged hflag

theorem Command.readable_of_clausePhrase {c d : Command} {k : CommandKeyword} {cl dl : Clause}
    (hc : c.clause? = some (k, cl)) (hd : d.clause? = some (k, dl)) (hr : d.Obeys .readable)
    (ho : c.Obeys .checked) (hp : ClausePhrase us dl) (hx : isTag x = false) (hy : isTag y = false)
    (he : us ++ x :: xs = cl.tokens ++ y :: ys) : c.Obeys .readable := by
  by_cases hk : k = .setVariable
  · cases c with
    | setVariable => simp [Command.Obeys, SetCommand.Obeys]
    | flag c => obtain ⟨⟨⟩, _, _, _⟩ := c <;> cases hc <;> cases hk
    | _ => cases hc <;> cases hk
  · obtain ⟨hcr, hca⟩ := Command.clause_apart hc hk
    obtain ⟨hdr, hda⟩ := Command.clause_apart hd hk
    have hco := ((Command.obeys_iff hc).1 ho).1
    rw [← hca, ← pairwise_apart_of_clausePhrase hco hcr hdr hp hx hy he, hda]
    exact hr

end MailSieve
