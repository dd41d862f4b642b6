import MailSieve.Proofs.Reading.Value

/-! Tags in the order of the source.
`tags rules` reads the settings of a clause one by one. The uses that it gives are those that the
rules admit: each is made by the rule of its name, and of one group there is one use at most. -/

namespace MailSieve

open Parse Phrase

variable {α β : Type} {o : ParseOptions}

namespace TagValue

def kind : TagValue → TagValueKind
  | none => .none
  | string _ => .string
  | strings _ => .strings
  | number _ => .number
  | operator _ => .operator
  | importance _ => .importance

end TagValue

namespace TagUse

def setting (u : TagUse) : Setting := ⟨u.rule.name, u.value⟩

end TagUse

def ruleOf (rules : List TagRule) (name : String) : Option TagRule := rules.find? (·.name == name)

theorem ruleOf_name {rules : List TagRule} {name : String} {r : TagRule}
    (h : ruleOf rules name = some r) : r.name = name := by
  simpa using List.find?_some h

namespace TagUses

def Fitting (rules : List TagRule) (u : TagUse) : Prop :=
  ruleOf rules u.rule.name = some u.rule ∧ u.value.kind = u.rule.value

def Apart (u v : TagUse) : Prop := u.rule.group = none ∨ u.rule.group ≠ v.rule.group

structure Admitted (rules : List TagRule) (uses : TagUses) : Prop where
  fitting : ∀ u ∈ uses, Fitting rules u
  apart : uses.Pairwise fun u v => Apart v u

/-- What was read, without the rules that say how. -/
def settings (uses : TagUses) : List Setting := uses.map (·.setting)

theorem taken_eq_false {uses : TagUses} {r : TagRule} :
    uses.taken r = false ↔ ∀ u ∈ uses, r.group = none ∨ r.group ≠ u.rule.group := by
  rw [taken]
  cases h : r.group with
  | none => simp
  | some g => simp only [Option.isSome_some, Bool.true_and, List.any_eq_false, beq_iff_eq,
      reduceCtorEq, false_or, ne_eq, @eq_comm _ (some g)]

theorem admitted_append_one {rules : List TagRule} {uses : TagUses} {u : TagUse} :
    Admitted rules (uses ++ [u])
      ↔ Admitted rules uses ∧ Fitting rules u ∧ uses.taken u.rule = false := by
  rw [taken_eq_false]
  constructor
  · rintro ⟨hf, ha⟩
    obtain ⟨hu, -, hx⟩ := List.pairwise_append.1 ha
    exact ⟨⟨fun v hv => hf v (List.mem_append_left _ hv), hu⟩, hf u (by simp),
      fun v hv => hx v hv u (by simp)⟩
  · rintro ⟨⟨hf, ha⟩, hu, hx⟩
    refine ⟨?_, List.pairwise_append.2 ⟨ha, List.pairwise_singleton _ _, ?_⟩⟩
    · intro v hv
      obtain hv | hv := List.mem_append.1 hv
      · exact hf v hv
      · rwa [List.mem_singleton.1 hv]
    · intro v hv w hw
      rw [List.mem_singleton.1 hw]
      exact hx v hv

theorem Admitted.left {rules : List TagRule} {uses more : TagUses}
    (h : Admitted rules (uses ++ more)) : Admitted rules uses :=
  ⟨fun u hu => h.fitting u (List.mem_append_left _ hu), (List.pairwise_append.1 h.apart).1⟩

end TagUses

def isTag : Token → Bool
  | .tag _ => true
  | _ => false

theorem exists_tag {t : Token} (h : isTag t = true) : ∃ name, t = .tag name := by
  cases t <;> simp_all [isTag]

namespace Parse

theorem nextTag_none {c : Cursor} (h : isTag c.current.token = false) :
    nextTag o c = .ok (none, c.note (.tokenClass "tag")) := by
  cases ht : c.current.token <;>
    simp_all [nextTag, bind_run, Parse.note, peek, Except.bind, isTag, pure_run]

theorem nextTag_some {c : Cursor} {name : String} (h : c.current.token = .tag name) :
    nextTag o c = (advance >>= fun _ => pure (some (name, c.current))) o
      (c.note (.tokenClass "tag")) := by
  rw [nextTag, bind_run, Parse.note, Except.bind, bind_run, peek, Except.bind]
  simp only [Cursor.current_note, h]

end Parse

namespace Reads

theorem ofWord_word {ofWord? : String → Option α} {word : α → String} {values : List α}
    (h : ∀ s, ofWord? s = values.find? (word · == s)) {s : String} {a : α}
    (ha : ofWord? s = some a) : word a = s := by
  rw [h] at ha
  simpa using List.find?_some ha

theorem tagValue (ho : o.locations = false) (k : TagValueKind) :
    Reads o (tagValue k) (fun ts v => ValuePhrase ts v ∧ v.kind = k) Free := by
  cases k with
  | none =>
    refine (result TagValue.none).congr fun ts v => ⟨?_, ?_⟩
    · rintro ⟨rfl, rfl⟩
      exact ⟨.none, rfl⟩
    · rintro ⟨h, hk⟩
      cases h <;> simp_all [TagValue.kind]
  | string =>
    refine ((string ho).map TagValue.string).congr fun ts v => ⟨?_, ?_⟩
    · rintro ⟨s, h, rfl⟩
      exact ⟨.string h, rfl⟩
    · rintro ⟨h, hk⟩
      cases h <;> simp_all [TagValue.kind]
  | strings =>
    refine ((stringList ho).map TagValue.strings).congr fun ts v => ⟨?_, ?_⟩
    · rintro ⟨s, h, rfl⟩
      exact ⟨.strings h, rfl⟩
    · rintro ⟨h, hk⟩
      cases h <;> simp_all [TagValue.kind]
  | number =>
    refine ((number ho).map TagValue.number).congr fun ts v => ⟨?_, ?_⟩
    · rintro ⟨s, h, rfl⟩
      exact ⟨.number h, rfl⟩
    · rintro ⟨h, hk⟩
      cases h <;> simp_all [TagValue.kind]
  | operator =>
    refine ((chosen ho RelationalOperator.ofWord? .badOperator).map TagValue.operator).congr
      fun ts v => ⟨?_, ?_⟩
    · rintro ⟨x, ⟨value, multiline, rfl, hx⟩, rfl⟩
      rw [← ofWord_word (fun _ => rfl) hx]
      exact ⟨.operator x multiline, rfl⟩
    · rintro ⟨h, hk⟩
      cases h <;> simp_all [TagValue.kind, RelationalOperator.ofWord?_word]
  | importance =>
    refine ((chosen ho Importance.ofWord? .badImportance).map TagValue.importance).congr
      fun ts v => ⟨?_, ?_⟩
    · rintro ⟨x, ⟨value, multiline, rfl, hx⟩, rfl⟩
      rw [← ofWord_word (fun _ => rfl) hx]
      exact ⟨.importance x multiline, rfl⟩
    · rintro ⟨h, hk⟩
      cases h <;> simp_all [TagValue.kind, Importance.ofWord?_word]

theorem nextTagThen {p : Parse β} {q : String → Lexeme → Parse β} {G : List Token → β → Prop}
    {H : String → List Token → β → Prop} {K : β → Token → Prop} (hp : Reads o p G K)
    (hq : ∀ name l, Reads o (q name l) (H name) K)
    (hn : ∀ {ts b t}, G ts b → K b t → isTag (ts.headD t) = false) :
    Reads o
      (nextTag >>= fun r =>
        match r with
        | none => p
        | some (name, l) => q name l)
      (fun ts b => G ts b ∨ ∃ name us, ts = .tag name :: us ∧ H name us b) K where
  sound {c b e} hc h := by
    obtain ⟨r, d, hr, h⟩ := bind_ok.1 h
    cases ht : isTag c.current.token with
    | false =>
      obtain ⟨rfl, rfl⟩ := (nextTag_none ht).symm.trans hr |> Except.ok.inj |> Prod.mk.inj
      obtain ⟨ts, hts, hg⟩ := hp.sound (by simpa using hc) h
      exact ⟨ts, by simpa using hts, .inl hg⟩
    | true =>
      obtain ⟨name, ht⟩ := exists_tag ht
      rw [nextTag_some ht] at hr
      obtain ⟨l, f, ha, hr⟩ := bind_ok.1 hr
      obtain ⟨rfl, rfl⟩ := pure_ok.1 hr
      have hs := (Cursor.Ended.advance (by simpa using hc) ha (by simp [ht])).1
      simp only [Cursor.current_note, Cursor.passes_note, ht] at hs
      obtain ⟨us, hus, hh⟩ := (hq _ _).sound (hs.ended hc) h
      exact ⟨_, hs.trans hus, .inr ⟨name, us, rfl, hh⟩⟩
  complete {c ts b t rest} hg hk hc := by
    have hs := (Cursor.shows_note c (.tokenClass "tag")).2 hc
    rcases hg with hg | ⟨name, us, rfl, hh⟩
    · obtain ⟨d, hd, hds⟩ := hp.complete hg hk hs
      have ht : isTag c.current.token = false := by
        rw [hc.current_append]
        exact hn hg hk
      exact ⟨d, bind_ok.2 ⟨none, _, nextTag_none ht, hd⟩, hds⟩
    · obtain ⟨xs, hx⟩ := Cursor.append_eq_headD_cons us t rest
      rw [List.cons_append, hx] at hs
      obtain ⟨d, ha, hd⟩ := Cursor.Shows.advance (o := o) hs
      obtain ⟨e, he, hes⟩ := (hq name c.current).complete hh hk (hx ▸ hd)
      refine ⟨e, bind_ok.2 ⟨some (name, c.current), d, ?_, he⟩, hes⟩
      rw [nextTag_some hc.current]
      exact bind_ok.2 ⟨_, d, ha, rfl⟩

def OneMore (rules : List TagRule) (uses : TagUses) (ts : List Token) : Option TagUses → Prop
  | none => ts = []
  | some uses' => ∃ r v us, ts = .tag r.name :: us ∧ ruleOf rules r.name = some r
      ∧ ValuePhrase us v ∧ v.kind = r.value ∧ uses.taken r = false ∧ uses' = uses ++ [⟨r, v⟩]

theorem never {p : Parse β} {G : List Token → β → Prop} {K : β → Token → Prop}
    (hp : ∀ c b d, p o c ≠ .ok (b, d)) (hG : ∀ ts b, ¬ G ts b) : Reads o p G K where
  sound _ h := absurd h (hp _ _ _)
  complete h := absurd h (hG _ _)

theorem useOf (ho : o.locations = false) (rules : List TagRule) (uses : TagUses) (name : String)
    (l : Lexeme) :
    Reads o
      (match rules.find? (·.name == name) with
        | none => throw (.unknownTag name l.location l.found (rules.map (·.name)))
        | some rule =>
          if rule.value = .operator && uses.taken rule then conflict name l
          else do
            let value ← Parse.tagValue rule.value
            if uses.taken rule then conflict name l
            else pure (some (uses ++ [⟨rule, value⟩])))
      (fun ts r => ∃ rule v, ruleOf rules name = some rule ∧ ValuePhrase ts v
        ∧ v.kind = rule.value ∧ uses.taken rule = false ∧ r = some (uses ++ [⟨rule, v⟩]))
      Free := by
  rw [← ruleOf]
  cases hr : ruleOf rules name with
  | none => exact never (fun _ _ _ h => throw_ok.1 h) (by simp)
  | some rule =>
    dsimp only
    cases ht : uses.taken rule with
    | true =>
      refine never ?_ ?_
      · intro c r d h
        split at h
        · cases h
        · obtain ⟨v, e, -, h⟩ := bind_ok.1 h
          cases h
      · rintro ts r ⟨rule', v, hr', -, -, hf, -⟩
        cases hr'
        rw [ht] at hf
        cases hf
    | false =>
      simp only [Bool.and_false, Bool.false_eq_true, if_false]
      refine ((tagValue ho rule.value).map fun v => some (uses ++ [⟨rule, v⟩])).congr
        fun ts r => ⟨?_, ?_⟩
      · rintro ⟨v, ⟨hv, hk⟩, rfl⟩
        exact ⟨rule, v, rfl, hv, hk, ht, rfl⟩
      · rintro ⟨rule', v, hr', hv, hk, -, rfl⟩
        cases hr'
        exact ⟨v, ⟨hv, hk⟩, rfl⟩

theorem tagStep (ho : o.locations = false) (rules : List TagRule) (uses : TagUses) :
    Reads o (tagStep rules uses) (OneMore rules uses)
      (fun r t => r = none → isTag t = false) := by
  have skip : Reads o (pure none) (fun ts r => ts = [] ∧ r = (none : Option TagUses))
      (fun r t => r = none → isTag t = false) := (result none).follow fun _ _ => trivial
  refine (nextTagThen skip (fun name l => (useOf ho rules uses name l).follow fun _ _ => trivial)
    ?_).congr fun ts r => ⟨?_, ?_⟩
  · rintro _ _ t ⟨rfl, rfl⟩ ht
    exact ht rfl
  · rintro (⟨rfl, rfl⟩ | ⟨name, us, rfl, rule, v, hr, hv, hk, ht, rfl⟩)
    · rfl
    · cases ruleOf_name hr
      exact ⟨rule, v, us, rfl, hr, hv, hk, ht, rfl⟩
  · intro h
    cases r with
    | none => exact .inl ⟨h, rfl⟩
    | some uses' =>
      obtain ⟨rule, v, us, rfl, hr, hv, hk, ht, rfl⟩ := h
      exact .inr ⟨rule.name, us, rfl, rule, v, hr, hv, hk, ht, rfl⟩

theorem uses_of_iterated {rules : List TagRule} {uses uses' : TagUses} {ts : List Token}
    (h : Iterated (OneMore rules) uses ts uses') (hu : uses.Admitted rules) :
    uses'.Admitted rules ∧ ∃ more, uses' = uses ++ more
      ∧ Sequence SettingPhrase ts (TagUses.settings more) := by
  induction h with
  | stop hs =>
    cases hs
    exact ⟨hu, [], by simp, .nil⟩
  | more hs _ ih =>
    obtain ⟨rule, v, us, rfl, hr, hv, hk, ht, rfl⟩ := hs
    obtain ⟨ha, more, rfl, hseq⟩ := ih (TagUses.admitted_append_one.2 ⟨hu, ⟨hr, hk⟩, ht⟩)
    exact ⟨ha, ⟨rule, v⟩ :: more, by simp, .cons (.mk (s := ⟨rule.name, v⟩) hv) hseq⟩

theorem iterated_of_uses {rules : List TagRule} {uses more : TagUses} {ts : List Token}
    (h : TagUses.Admitted rules (uses ++ more))
    (hs : Sequence SettingPhrase ts (TagUses.settings more)) :
    Iterated (OneMore rules) uses ts (uses ++ more) := by
  induction more generalizing uses ts with
  | nil =>
    cases hs
    rw [List.append_nil]
    exact .stop rfl
  | cons u more ih =>
    obtain _ | ⟨⟨hv⟩, hs⟩ := hs
    have he : uses ++ u :: more = uses ++ [u] ++ more := by simp
    rw [he] at h ⊢
    obtain ⟨-, ⟨hr, hk⟩, ht⟩ := TagUses.admitted_append_one.1 h.left
    exact .more ⟨u.rule, u.value, _, rfl, hr, hv, hk, ht, rfl⟩ (ih h hs)

theorem tags (ho : o.locations = false) (rules : List TagRule) :
    Reads o (tags rules)
      (fun ts uses => uses.Admitted rules ∧ Sequence SettingPhrase ts uses.settings)
      (fun _ t => isTag t = false) := by
  refine (iterate (K := fun t => isTag t = false) (tagStep ho rules) ?_ []).congr
    fun ts uses => ⟨?_, ?_⟩
  · rintro uses ts uses' ⟨rule, v, us, rfl, -⟩
    simp
  · intro h
    obtain ⟨ha, more, rfl, hs⟩ := uses_of_iterated h ⟨by simp, .nil⟩
    exact ⟨ha, hs⟩
  · rintro ⟨ha, hs⟩
    have hall : TagUses.Admitted rules ([] ++ uses) := ha
    exact iterated_of_uses hall hs

end Reads

end MailSieve
