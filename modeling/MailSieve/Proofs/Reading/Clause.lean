import MailSieve.Proofs.Reading.Shape

/-! How clauses are read.
`Rest` is what stands behind the tags of a clause, up to an ending: nothing for a test, a semicolon
for a command. `Leaf` is a whole clause with its ending. -/

namespace MailSieve

open Parse Phrase

variable {α β : Type} {o : ParseOptions} {ts : List Token} {b : β} {ending : List Token}

namespace Phrase

theorem sequence_nil {item : List Token → α → Prop} : Sequence item ts [] ↔ ts = [] := by
  constructor
  · rintro ⟨⟩
    rfl
  · rintro rfl
    exact .nil

theorem sequence_cons {item : List Token → α → Prop} {a : α} {as : List α} :
    Sequence item ts (a :: as) ↔ ∃ us vs, ts = us ++ vs ∧ item us a ∧ Sequence item vs as := by
  constructor
  · rintro ⟨⟩
    exact ⟨_, _, rfl, ‹_›, ‹_›⟩
  · rintro ⟨us, vs, rfl, ha, has⟩
    exact .cons ha has

theorem clausePhrase_iff {c : Clause} :
    ClausePhrase ts c ↔ ∃ us vs ss, ts = us ++ vs ∧ c.Arranges ss ∧ Sequence SettingPhrase us ss
      ∧ Sequence PositionalPhrase vs c.positionals := by
  constructor
  · rintro ⟨ha, hs, hp⟩
    exact ⟨_, _, _, rfl, ha, hs, hp⟩
  · rintro ⟨us, vs, ss, rfl, ha, hs, hp⟩
    exact .mk ha hs hp

theorem clausePhrase_untagged {ps : List Positional} :
    ClausePhrase ts ⟨[], ps, false⟩ ↔ Sequence PositionalPhrase ts ps := by
  constructor
  · intro h
    obtain ⟨us, vs, ss, rfl, ha, hs, hp⟩ := clausePhrase_iff.1 h
    cases List.perm_nil.1 (Clause.arranges_false.1 ha)
    cases sequence_nil.1 hs
    exact hp
  · intro h
    exact clausePhrase_iff.2 ⟨[], ts, [], rfl, Clause.arranges_false.2 (.refl []), .nil, h⟩

/-- The positional values of a clause and what ends it. -/
def Rest (ending : List Token) (P : List Positional → β → Prop) (ts : List Token) (b : β) : Prop :=
  ∃ us ps, ts = us ++ ending ∧ Sequence PositionalPhrase us ps ∧ P ps b

def Leaf (ending : List Token) (P : Clause → β → Prop) (ts : List Token) (b : β) : Prop :=
  ∃ us c, ts = us ++ ending ∧ ClausePhrase us c ∧ P c b

theorem ListPhrase.starts {l : StringList} (h : ListPhrase ts l) (t : Token) :
    Reads.startsList (ts.headD t) = true := by
  obtain ⟨⟨⟩⟩ | ⟨⟨⟩⟩ := h <;> rfl

theorem positionalPhrase_string {s : StringLit} :
    PositionalPhrase ts (.string s) ↔ StringPhrase ts s := by
  constructor
  · intro h
    cases h
    assumption
  · exact .string

theorem positionalPhrase_strings {l : StringList} :
    PositionalPhrase ts (.strings l) ↔ ListPhrase ts l := by
  constructor
  · intro h
    cases h
    assumption
  · exact .strings

theorem positionalPhrase_number {n : NumberLit} :
    PositionalPhrase ts (.number n) ↔ NumberPhrase ts n := by
  constructor
  · intro h
    cases h
    assumption
  · exact .number

theorem PositionalPhrase.not_tag {p : Positional} (h : PositionalPhrase ts p) (t : Token) :
    isTag (ts.headD t) = false := by
  obtain ⟨⟨⟩⟩ | ⟨⟨⟨⟩⟩ | ⟨⟨⟩⟩⟩ | ⟨⟨⟩⟩ | ⟨⟨⟨⟩⟩ | ⟨⟨⟩⟩⟩ := h <;> rfl

theorem PositionalPhrase.ne_nil {p : Positional} (h : PositionalPhrase ts p) : ts ≠ [] := by
  obtain ⟨⟨⟩⟩ | ⟨⟨⟨⟩⟩ | ⟨⟨⟩⟩⟩ | ⟨⟨⟩⟩ | ⟨⟨⟨⟩⟩ | ⟨⟨⟩⟩⟩ := h <;> simp [bracketed]

theorem Rest.not_tag {P : List Positional → β → Prop} (h : Rest ending P ts b) {t : Token}
    (ht : isTag (ending.headD t) = false) : isTag (ts.headD t) = false := by
  obtain ⟨us, ps, rfl, hs, -⟩ := h
  cases hs with
  | nil => exact ht
  | @cons us vs p ps hp _ =>
    obtain ⟨u, us, rfl⟩ := List.exists_cons_of_ne_nil hp.ne_nil
    exact hp.not_tag t

theorem Rest.imp {P Q : List Positional → β → Prop} (h : Rest ending P ts b)
    (hPQ : ∀ ps b, P ps b → Q ps b) : Rest ending Q ts b := by
  obtain ⟨us, ps, ht, hs, hp⟩ := h
  exact ⟨us, ps, ht, hs, hPQ ps b hp⟩

end Phrase

namespace Reads

variable {K : Token → Prop}

theorem itemThen {p : Parse α} {q : α → Parse β} {G : List Token → α → Prop}
    {mk : α → Positional} {P : α → List Positional → β → Prop} (hp : Reads o p G Free)
    (hG : ∀ ts a, G ts a ↔ PositionalPhrase ts (mk a))
    (hq : ∀ a, Reads o (q a) (Rest ending (P a)) fun _ => K) :
    Reads o (p >>= q) (Rest ending fun ps b => ∃ a qs, ps = mk a :: qs ∧ P a qs b)
      fun _ => K := by
  refine (hp.andThen hq).congr fun ts b => ⟨?_, ?_⟩
  · rintro ⟨us, _, a, rfl, hg, vs, ps, rfl, hs, hp⟩
    exact ⟨us ++ vs, mk a :: ps, by simp, .cons ((hG us a).1 hg) hs, a, ps, rfl, hp⟩
  · rintro ⟨us, _, rfl, hs, a, ps, rfl, hp⟩
    obtain ⟨us, vs, rfl, ha, hs⟩ := sequence_cons.1 hs
    exact ⟨us, vs ++ ending, a, by simp, (hG us a).2 ha, vs, ps, rfl, hs, hp⟩

theorem stringThen (ho : o.locations = false) {q : StringLit → Parse β}
    {P : StringLit → List Positional → β → Prop}
    (hq : ∀ s, Reads o (q s) (Rest ending (P s)) fun _ => K) :
    Reads o (Parse.string >>= q) (Rest ending fun ps b => ∃ s qs, ps = .string s :: qs ∧ P s qs b)
      fun _ => K :=
  itemThen (string ho) (fun _ _ => positionalPhrase_string.symm) hq

theorem stringsThen (ho : o.locations = false) {q : StringList → Parse β}
    {P : StringList → List Positional → β → Prop}
    (hq : ∀ l, Reads o (q l) (Rest ending (P l)) fun _ => K) :
    Reads o (Parse.stringList >>= q)
      (Rest ending fun ps b => ∃ l qs, ps = .strings l :: qs ∧ P l qs b) fun _ => K :=
  itemThen (stringList ho) (fun _ _ => positionalPhrase_strings.symm) hq

theorem numberThen (ho : o.locations = false) {q : NumberLit → Parse β}
    {P : NumberLit → List Positional → β → Prop}
    (hq : ∀ n, Reads o (q n) (Rest ending (P n)) fun _ => K) :
    Reads o (Parse.number >>= q) (Rest ending fun ps b => ∃ n qs, ps = .number n :: qs ∧ P n qs b)
      fun _ => K :=
  itemThen (number ho) (fun _ _ => positionalPhrase_number.symm) hq

theorem testEnd (ho : o.locations = false) (start : Position) (f : Option Location → β) :
    Reads o (span start >>= fun l => pure (f l)) (Rest [] fun ps b => ps = [] ∧ b = f none)
      fun _ => K := by
  refine spanThen ho start (((result (f none)).follow fun _ _ => trivial).congr
    fun ts b => ⟨?_, ?_⟩)
  · rintro ⟨rfl, rfl⟩
    exact ⟨[], [], rfl, .nil, rfl, rfl⟩
  · rintro ⟨us, ps, rfl, hs, rfl, rfl⟩
    rw [sequence_nil.1 hs]
    exact ⟨rfl, rfl⟩

theorem commandEnd (ho : o.locations = false) (start : Position) (f : Option Location → β) :
    Reads o (expect .semicolon >>= fun _ => span start >>= fun l => pure (f l))
      (Rest [.mark .semicolon] fun ps b => ps = [] ∧ b = f none) fun _ => K := by
  refine (expectThen fun _ => testEnd ho start f).congr fun ts b => ⟨?_, ?_⟩
  · rintro ⟨_, rfl, us, ps, rfl, hs, rfl, rfl⟩
    rw [sequence_nil.1 hs]
    exact ⟨[], [], rfl, .nil, rfl, rfl⟩
  · rintro ⟨us, ps, rfl, hs, rfl, rfl⟩
    rw [sequence_nil.1 hs]
    exact ⟨[], rfl, [], [], rfl, .nil, rfl, rfl⟩

theorem tagsThen (ho : o.locations = false) {rules : List TagRule} {got : TagUses → α}
    {settings : α → List Setting} {ok : α → Prop} {ordered : Bool}
    (hgot : ∀ ss a,
      (∃ uses : TagUses, uses.Admitted rules ∧ uses.settings = ss ∧ got uses = a)
        ↔ (⟨settings a, [], ordered⟩ : Clause).Arranges ss ∧ ok a)
    {q : α → Parse β} {P : α → List Positional → β → Prop}
    (hq : ∀ a, Reads o (q a) (Rest ending (P a)) fun _ => K)
    (hK : ∀ {t}, K t → isTag (ending.headD t) = false) :
    Reads o (Parse.tags rules >>= fun uses => q (got uses))
      (Leaf ending fun c b => ∃ a ps, c = ⟨settings a, ps, ordered⟩ ∧ ok a ∧ P a ps b)
      fun _ => K := by
  refine ((tags ho rules).bind (fun uses => hq (got uses)) ?_).congr fun ts b => ⟨?_, ?_⟩
  · intro us vs uses b t _ hr hk
    exact hr.not_tag (hK hk)
  · rintro ⟨us, _, uses, rfl, ⟨hu, hs⟩, vs, ps, rfl, hv, hp⟩
    obtain ⟨ha, hok⟩ := (hgot _ _).1 ⟨uses, hu, rfl, rfl⟩
    have hc : ClausePhrase (us ++ vs) ⟨settings (got uses), ps, ordered⟩ := .mk ha hs hv
    exact ⟨us ++ vs, _, by simp, hc, got uses, ps, rfl, hok, hp⟩
  · rintro ⟨_, _, rfl, hc, a, ps, rfl, hok, hp⟩
    obtain ⟨us, vs, ss, rfl, ha, hs, hv⟩ := clausePhrase_iff.1 hc
    obtain ⟨uses, hu, rfl, rfl⟩ := (hgot ss a).2 ⟨ha, hok⟩
    exact ⟨us, vs ++ ending, uses, by simp, ⟨hu, hs⟩, vs, ps, rfl, hv, hp⟩

theorem slotThen (ho : o.locations = false) {rules : List TagRule} (S : Slot rules α)
    (hfull : S.Full) {q : α → Parse β} {P : α → List Positional → β → Prop}
    (hq : ∀ a, Reads o (q a) (Rest ending (P a)) fun _ => K)
    (hK : ∀ {t}, K t → isTag (ending.headD t) = false) :
    Reads o (Parse.tags rules >>= fun uses => q (S.got uses))
      (Leaf ending fun c b => ∃ a ps, c = ⟨S.settings a, ps, false⟩ ∧ S.apart a ∧ P a ps b)
      fun _ => K :=
  tagsThen ho (fun _ _ => by rw [S.admitted_iff hfull, Clause.arranges_false]) hq hK

theorem untagged {p : Parse β} {P : List Positional → β → Prop}
    (h : Reads o p (Rest ending P) fun _ => K) :
    Reads o p (Leaf ending fun c b => ∃ ps, c = ⟨[], ps, false⟩ ∧ P ps b) fun _ => K := by
  refine h.congr fun ts b => ⟨?_, ?_⟩
  · rintro ⟨us, ps, rfl, hs, hp⟩
    exact ⟨us, _, rfl, clausePhrase_untagged.2 hs, ps, rfl, hp⟩
  · rintro ⟨us, _, rfl, hc, ps, rfl, hp⟩
    exact ⟨us, ps, rfl, clausePhrase_untagged.1 hc, hp⟩

theorem leaf {p : Parse β} {P Q : Clause → β → Prop} (h : Reads o p (Leaf ending P) fun _ => K)
    (hPQ : ∀ c b, P c b ↔ Q c b) : Reads o p (Leaf ending Q) fun _ => K :=
  h.congr fun _ b => exists_congr fun _ => exists_congr fun c => and_congr_right fun _ =>
    and_congr_right fun _ => hPQ c b

end Reads

end MailSieve
