import MailSieve.Proofs.Reading.Tag

/-! Slots: what a node keeps of its tags.
A slot is a part of a node that is filled by the uses of its own names. `settings` lists the tags
that a value of the slot is written with, and `got` looks the value up among the uses. Two slots
with names of their own make a slot for pairs. A slot for all names of a list of rules says which
settings can be read as which value: those that are a permutation of the value's own, if no two of
these exclude each other. -/

namespace MailSieve

open Phrase

variable {α β κ : Type} {rules : List TagRule} {uses : TagUses} {name : String} {r : TagRule}

namespace Phrase.Setting

def Fits (rules : List TagRule) (groups : List String) (s : Setting) : Prop :=
  ∃ r g, ruleOf rules s.name = some r ∧ s.value.kind = r.value ∧ r.group = some g ∧ g ∈ groups

def Apart (rules : List TagRule) (s t : Setting) : Prop :=
  ∀ r q, ruleOf rules s.name = some r → ruleOf rules t.name = some q → r.group ≠ q.group

theorem Apart.symm {s t : Setting} (h : Apart rules s t) : Apart rules t s :=
  fun r q hr hq he => h q r hq hr he.symm

theorem Fits.apart {gs hs : List String} {s t : Setting} (h : s.Fits rules gs) (k : t.Fits rules hs)
    (hd : ∀ g ∈ gs, g ∉ hs) : Apart rules s t := by
  obtain ⟨r, g, hr, -, hg, hgs⟩ := h
  obtain ⟨q, g', hq, -, hg', hhs⟩ := k
  intro r' q' hr' hq' he
  cases hr.symm.trans hr'
  cases hq.symm.trans hq'
  rw [hg, hg'] at he
  cases he
  exact hd g hgs hhs

theorem Fits.not_apart {g : String} {s t : Setting} (h : s.Fits rules [g]) (k : t.Fits rules [g]) :
    ¬ Apart rules s t := by
  obtain ⟨r, g, hr, -, hg, hgs⟩ := h
  obtain ⟨q, g', hq, -, hg', hhs⟩ := k
  simp only [List.mem_singleton] at hgs hhs
  intro ha
  exact ha r q hr hq (by rw [hg, hg', hgs, hhs])

end Phrase.Setting

theorem mem_flagSetting {b : Bool} {s : Setting} :
    s ∈ flagSetting name b ↔ b = true ∧ s = ⟨name, .none⟩ := by
  cases b <;> simp [flagSetting]

namespace TagUses

theorem mem_settings {s : Setting} : s ∈ uses.settings ↔ ∃ u ∈ uses, u.setting = s := List.mem_map

theorem Admitted.eq_of_group (h : Admitted rules uses) {u v : TagUse} (hu : u ∈ uses)
    (hv : v ∈ uses) (hg : u.rule.group = v.rule.group) (hn : u.rule.group ≠ none) : u = v := by
  refine List.Pairwise.forall_of_forall_of_flip
    (R := fun u v => u.rule.group = v.rule.group → u.rule.group ≠ none → u = v)
    (fun _ _ _ _ => rfl) (h.apart.imp ?_) (h.apart.imp ?_) hu hv hg hn
  · rintro u v (hx | hx) he hne
    · exact absurd (he.trans hx) hne
    · exact absurd he.symm hx
  · rintro u v (hx | hx) he hne
    · exact absurd hx hne
    · exact absurd he hx

theorem Admitted.setting_eq (h : Admitted rules uses) {s t : Setting} (hs : s ∈ uses.settings)
    (ht : t ∈ uses.settings) {q : TagRule} {g : String} (hr : ruleOf rules s.name = some r)
    (hq : ruleOf rules t.name = some q) (hrg : r.group = some g) (hqg : q.group = some g) :
    s = t := by
  obtain ⟨u, hu, rfl⟩ := mem_settings.1 hs
  obtain ⟨v, hv, rfl⟩ := mem_settings.1 ht
  cases (h.fitting u hu).1.symm.trans hr
  cases (h.fitting v hv).1.symm.trans hq
  rw [h.eq_of_group hu hv (hrg.trans hqg.symm) (by simp [hrg])]

theorem Admitted.kind_eq (h : Admitted rules uses) {s : Setting} (hs : s ∈ uses.settings)
    (hr : ruleOf rules s.name = some r) : s.value.kind = r.value := by
  obtain ⟨u, hu, rfl⟩ := mem_settings.1 hs
  obtain ⟨hf, hk⟩ := h.fitting u hu
  cases hf.symm.trans hr
  exact hk

theorem Admitted.value?_eq_some (h : Admitted rules uses) {g : String} {v : TagValue}
    (hr : ruleOf rules name = some r) (hg : r.group = some g) :
    uses.value? name = some v ↔ ⟨name, v⟩ ∈ uses.settings := by
  constructor
  · intro hv
    obtain ⟨u, hu, rfl⟩ := Option.map_eq_some_iff.1 hv
    refine mem_settings.2 ⟨u, List.mem_of_find?_eq_some hu, ?_⟩
    have hn : u.rule.name = name := by simpa using List.find?_some hu
    rw [TagUse.setting, hn]
  · intro hs
    obtain ⟨u, hu, he⟩ := mem_settings.1 hs
    cases he
    have hsome : (uses.find? (·.rule.name == u.rule.name)).isSome = true :=
      List.find?_isSome.2 ⟨u, hu, beq_self_eq_true u.rule.name⟩
    obtain ⟨v, hv⟩ := Option.isSome_iff_exists.1 hsome
    have hvu : v.setting = u.setting := by
      have hn : v.rule.name = u.rule.name := by simpa using List.find?_some hv
      refine h.setting_eq (mem_settings.2 ⟨v, List.mem_of_find?_eq_some hv, rfl⟩) hs ?_ hr hg hg
      rw [TagUse.setting, hn]
      exact hr
    exact Option.map_eq_some_iff.2 ⟨v, hv, congrArg Setting.value hvu⟩

theorem Admitted.has_iff (h : Admitted rules uses) {g : String}
    (hr : ruleOf rules name = some r) (hg : r.group = some g) (hk : r.value = .none) :
    uses.has name = true ↔ ⟨name, .none⟩ ∈ uses.settings := by
  rw [has, Option.isSome_iff_exists]
  constructor
  · rintro ⟨v, hv⟩
    have hs := (h.value?_eq_some hr hg).1 hv
    have hkv := (h.kind_eq hs hr).trans hk
    cases v <;> first | exact hs | cases hkv
  · intro hs
    exact ⟨_, (h.value?_eq_some hr hg).2 hs⟩

theorem string?_eq_some {s : StringLit} :
    uses.string? name = some s ↔ uses.value? name = some (.string s) := by
  rw [string?]
  split <;> simp_all

theorem strings?_eq_some {l : StringList} :
    uses.strings? name = some l ↔ uses.value? name = some (.strings l) := by
  rw [strings?]
  split <;> simp_all

theorem number?_eq_some {n : NumberLit} :
    uses.number? name = some n ↔ uses.value? name = some (.number n) := by
  rw [number?]
  split <;> simp_all

theorem importance?_eq_some {i : Importance} :
    uses.importance? name = some i ↔ uses.value? name = some (.importance i) := by
  rw [importance?]
  split <;> simp_all

/-- Among the settings with these names the uses hold those of `l`. -/
def Agree (uses : TagUses) (names : List String) (l : List Setting) : Prop :=
  ∀ s : Setting, s.name ∈ names → (s ∈ uses.settings ↔ s ∈ l)

theorem agree_append {ns ms : List String} {l m : List Setting} (hl : ∀ {s}, s ∈ l → s.name ∈ ns)
    (hm : ∀ {s}, s ∈ m → s.name ∈ ms) (hd : ∀ n ∈ ns, n ∉ ms) :
    uses.Agree (ns ++ ms) (l ++ m) ↔ uses.Agree ns l ∧ uses.Agree ms m := by
  constructor
  · intro h
    refine ⟨fun s hs => ?_, fun s hs => ?_⟩
    · rw [h s (List.mem_append_left _ hs), List.mem_append, or_iff_left]
      exact fun hsm => hd _ hs (hm hsm)
    · rw [h s (List.mem_append_right _ hs), List.mem_append, or_iff_right]
      exact fun hsl => hd _ (hl hsl) hs
  · rintro ⟨h, k⟩ s hs
    rw [List.mem_append]
    obtain hs | hs := List.mem_append.1 hs
    · rw [h s hs, or_iff_left]
      exact fun hsm => hd _ hs (hm hsm)
    · rw [k s hs, or_iff_right]
      exact fun hsl => hd _ (hl hsl) hs

theorem agree_settingOf {names : List String} {f : α → Setting} {got : Option α}
    (hgot : ∀ a, got = some a ↔ f a ∈ uses.settings)
    (hval : ∀ s ∈ uses.settings, s.name ∈ names → ∃ a, f a = s) (hname : ∀ a, (f a).name ∈ names)
    (a : Option α) : got = a ↔ uses.Agree names (settingOf f a) := by
  constructor
  · rintro rfl s hs
    constructor
    · intro hm
      obtain ⟨b, rfl⟩ := hval s hm hs
      rw [(hgot b).2 hm]
      simp [settingOf]
    · intro hm
      obtain ⟨b, hb, rfl⟩ := List.mem_map.1 hm
      exact (hgot b).1 (Option.mem_toList.1 hb)
  · intro h
    cases a with
    | none =>
      refine Option.eq_none_iff_forall_ne_some.2 fun b hb => ?_
      simpa [settingOf] using (h _ (hname b)).1 ((hgot b).1 hb)
    | some a =>
      exact (hgot a).2 ((h _ (hname a)).2 (by simp [settingOf]))

end TagUses

/-- The value of a slot, its tags, and how they are looked up. -/
structure Slot (rules : List TagRule) (α : Type) where
  names : List String
  groups : List String
  settings : α → List Setting
  apart : α → Prop
  got : TagUses → α
  named : ∀ {a s}, s ∈ settings a → s.name ∈ names
  fits : ∀ {a s}, s ∈ settings a → s.Fits rules groups
  distinct : ∀ a, (settings a).Pairwise fun s t => s.name ≠ t.name
  apart_iff : ∀ a, apart a ↔ (settings a).Pairwise (Setting.Apart rules)
  got_iff : ∀ {uses a}, uses.Admitted rules → (got uses = a ↔ uses.Agree names (settings a))

namespace Slot

def choice (names : List String) (g : String) (f : α → Setting) (got : TagUses → Option α)
    (hname : ∀ a, (f a).name ∈ names) (hfit : ∀ a, (f a).Fits rules [g])
    (hval : ∀ s : Setting, s.name ∈ names →
      (∀ r, ruleOf rules s.name = some r → s.value.kind = r.value) → ∃ a, f a = s)
    (hgot : ∀ {uses}, uses.Admitted rules → ∀ a, got uses = some a ↔ f a ∈ uses.settings) :
    Slot rules (Option α) where
  names := names
  groups := [g]
  settings := settingOf f
  apart _ := True
  got := got
  named hs := by
    obtain ⟨a, -, rfl⟩ := List.mem_map.1 hs
    exact hname a
  fits hs := by
    obtain ⟨a, -, rfl⟩ := List.mem_map.1 hs
    exact hfit a
  distinct a := by cases a <;> simp [settingOf]
  apart_iff a := by cases a <;> simp [settingOf]
  got_iff {_ a} hu := TagUses.agree_settingOf (hgot hu)
    (fun s hs hn => hval s hn fun _ hr => hu.kind_eq hs hr) hname a

def valued (g name : String) (mk : α → TagValue) (got : TagUses → Option α)
    (hr : ruleOf rules name = some r) (hg : r.group = some g) (hk : ∀ a, (mk a).kind = r.value)
    (hmk : ∀ v : TagValue, v.kind = r.value → ∃ a, mk a = v)
    (hgot : ∀ uses a, got uses = some a ↔ uses.value? name = some (mk a)) :
    Slot rules (Option α) :=
  choice [name] g (fun a => ⟨name, mk a⟩) got (fun _ => List.mem_singleton_self name)
    (fun a => ⟨r, g, hr, hk a, hg, List.mem_singleton_self g⟩)
    (by
      rintro ⟨n, v⟩ hn hv
      cases List.mem_singleton.1 hn
      obtain ⟨a, rfl⟩ := hmk v (hv r hr)
      exact ⟨a, rfl⟩)
    (fun hu a => (hgot _ a).trans (hu.value?_eq_some hr hg))

def string (name g : String) (hr : ruleOf rules name = some ⟨name, .string, some g⟩) :
    Slot rules (Option StringLit) :=
  valued g name .string (fun uses => uses.string? name) hr rfl (fun _ => rfl)
    (by
      rintro v hv
      cases v <;> first | exact ⟨_, rfl⟩ | cases hv)
    (fun _ _ => TagUses.string?_eq_some)

def strings (name g : String) (hr : ruleOf rules name = some ⟨name, .strings, some g⟩) :
    Slot rules (Option StringList) :=
  valued g name .strings (fun uses => uses.strings? name) hr rfl (fun _ => rfl)
    (by
      rintro v hv
      cases v <;> first | exact ⟨_, rfl⟩ | cases hv)
    (fun _ _ => TagUses.strings?_eq_some)

def number (name g : String) (hr : ruleOf rules name = some ⟨name, .number, some g⟩) :
    Slot rules (Option NumberLit) :=
  valued g name .number (fun uses => uses.number? name) hr rfl (fun _ => rfl)
    (by
      rintro v hv
      cases v <;> first | exact ⟨_, rfl⟩ | cases hv)
    (fun _ _ => TagUses.number?_eq_some)

def importance (name g : String) (hr : ruleOf rules name = some ⟨name, .importance, some g⟩) :
    Slot rules (Option Importance) :=
  valued g name .importance (fun uses => uses.importance? name) hr rfl (fun _ => rfl)
    (by
      rintro v hv
      cases v <;> first | exact ⟨_, rfl⟩ | cases hv)
    (fun _ _ => TagUses.importance?_eq_some)

def flag (name g : String) (hr : ruleOf rules name = some ⟨name, .none, some g⟩) :
    Slot rules Bool where
  names := [name]
  groups := [g]
  settings := flagSetting name
  apart _ := True
  got uses := uses.has name
  named {b s} hs := by
    cases b <;> simp_all [flagSetting]
  fits {b s} hs := by
    cases b
    · simp [flagSetting] at hs
    · cases List.mem_singleton.1 hs
      exact ⟨_, g, hr, rfl, rfl, List.mem_singleton_self g⟩
  distinct b := by cases b <;> simp [flagSetting]
  apart_iff b := by cases b <;> simp [flagSetting]
  got_iff {uses b} hu := by
    have hh := hu.has_iff hr rfl rfl
    constructor
    · rintro rfl ⟨n, v⟩ hn
      cases List.mem_singleton.1 hn
      rw [mem_flagSetting]
      constructor
      · intro hs
        have hk := hu.kind_eq hs hr
        cases v <;> first | exact ⟨hh.2 hs, rfl⟩ | cases hk
      · rintro ⟨hb, hs⟩
        exact hs ▸ hh.1 hb
    · intro h
      have hm := h ⟨name, .none⟩ (List.mem_singleton_self name)
      rw [mem_flagSetting, and_iff_left rfl] at hm
      exact Bool.eq_iff_iff.2 (hh.trans hm)

section Pair

variable (S : Slot rules α) (T : Slot rules β)

/-- Two slots, one behind the other, with a condition on what they hold together. -/
def append (cross : α → β → Prop) (hn : ∀ n ∈ S.names, n ∉ T.names)
    (hc : ∀ a b, cross a b ↔ ∀ s ∈ S.settings a, ∀ t ∈ T.settings b, Setting.Apart rules s t) :
    Slot rules (α × β) where
  names := S.names ++ T.names
  groups := S.groups ++ T.groups
  settings x := S.settings x.1 ++ T.settings x.2
  apart x := S.apart x.1 ∧ T.apart x.2 ∧ cross x.1 x.2
  got uses := (S.got uses, T.got uses)
  named hs := List.mem_append.2 ((List.mem_append.1 hs).imp S.named T.named)
  fits hs := by
    obtain hs | hs := List.mem_append.1 hs
    · obtain ⟨r, g, hr, hk, hg, hm⟩ := S.fits hs
      exact ⟨r, g, hr, hk, hg, List.mem_append_left _ hm⟩
    · obtain ⟨r, g, hr, hk, hg, hm⟩ := T.fits hs
      exact ⟨r, g, hr, hk, hg, List.mem_append_right _ hm⟩
  distinct x := by
    refine List.pairwise_append.2 ⟨S.distinct x.1, T.distinct x.2, fun s hs t ht he => ?_⟩
    exact hn _ (S.named hs) (he ▸ T.named ht)
  apart_iff x := by
    rw [List.pairwise_append, S.apart_iff, T.apart_iff, hc]
  got_iff hu := by
    rw [TagUses.agree_append S.named T.named hn, ← S.got_iff hu, ← T.got_iff hu, Prod.ext_iff]

def both (hn : ∀ n ∈ S.names, n ∉ T.names) (hg : ∀ g ∈ S.groups, g ∉ T.groups) :
    Slot rules (α × β) :=
  append S T (fun _ _ => True) hn fun _ _ =>
    ⟨fun _ _ hs _ ht => (S.fits hs).apart (T.fits ht) hg, fun _ => trivial⟩

def either {g : String} (hn : ∀ n ∈ S.names, n ∉ T.names) (hs : S.groups = [g])
    (ht : T.groups = [g]) : Slot rules (α × β) :=
  append S T (fun a b => S.settings a = [] ∨ T.settings b = []) hn fun a b => by
    constructor
    · rintro (h | h)
      · simp [h]
      · simp [h]
    · intro h
      by_cases hne : S.settings a = []
      · exact .inl hne
      · obtain ⟨s, hsm⟩ := List.exists_mem_of_ne_nil _ hne
        refine .inr (List.eq_nil_iff_forall_not_mem.2 fun t hm => ?_)
        exact (hs ▸ S.fits hsm).not_apart (ht ▸ T.fits hm) (h s hsm t hm)

end Pair

end Slot

namespace TagUses

theorem Admitted.settings_apart (h : Admitted rules uses) (hg : ∀ r ∈ rules, r.group ≠ none) :
    uses.settings.Pairwise (Setting.Apart rules) := by
  refine List.pairwise_map.2 (h.apart.imp_of_mem fun {u v} hu hv ha => ?_)
  intro r q hr hq
  cases (h.fitting u hu).1.symm.trans hr
  cases (h.fitting v hv).1.symm.trans hq
  obtain hn | hn := ha
  · exact absurd hn (hg _ (List.mem_of_find?_eq_some hq))
  · exact hn.symm

theorem Admitted.settings_distinct (h : Admitted rules uses) (hg : ∀ r ∈ rules, r.group ≠ none) :
    uses.settings.Pairwise fun s t => s.name ≠ t.name := by
  refine (h.settings_apart hg).imp_of_mem fun {s t} hs _ ha he => ?_
  obtain ⟨u, hu, rfl⟩ := mem_settings.1 hs
  have hr := (h.fitting u hu).1
  exact ha _ _ hr (he ▸ hr) rfl

theorem exists_admitted {groups : List String} {ss : List Setting}
    (hf : ∀ s ∈ ss, s.Fits rules groups) (ha : ss.Pairwise (Setting.Apart rules)) :
    ∃ uses : TagUses, uses.Admitted rules ∧ uses.settings = ss := by
  induction ss with
  | nil => exact ⟨[], ⟨by simp, .nil⟩, rfl⟩
  | cons s ss ih =>
    obtain ⟨hs, ha⟩ := List.pairwise_cons.1 ha
    obtain ⟨uses, hu, rfl⟩ := ih (fun t ht => hf t (List.mem_cons_of_mem s ht)) ha
    obtain ⟨r, g, hr, hk, hg, -⟩ := hf s List.mem_cons_self
    have hn := ruleOf_name hr
    refine ⟨⟨r, s.value⟩ :: uses, ⟨?_, List.pairwise_cons.2 ⟨fun v hv => .inr ?_, hu.apart⟩⟩, ?_⟩
    · intro v hv
      obtain rfl | hv := List.mem_cons.1 hv
      · exact ⟨hn.symm ▸ hr, hk⟩
      · exact hu.fitting v hv
    · exact (hs v.setting (mem_settings.2 ⟨v, hv, rfl⟩) r v.rule hr (hu.fitting v hv).1).symm
    · rw [settings, List.map_cons, TagUse.setting, hn, settings]

end TagUses

namespace Slot

@[reducible] def Full (S : Slot rules α) : Prop := ∀ r ∈ rules, r.name ∈ S.names ∧ r.group ≠ none

/-- The settings that are read as a value are a permutation of its own, if these may stand
together. -/
theorem admitted_iff (S : Slot rules α) (hfull : S.Full) {ss : List Setting} {a : α} :
    (∃ uses : TagUses, uses.Admitted rules ∧ uses.settings = ss ∧ S.got uses = a)
      ↔ ss.Perm (S.settings a) ∧ S.apart a := by
  have hgroup r (hr : r ∈ rules) := (hfull r hr).2
  constructor
  · rintro ⟨uses, hu, rfl, hgot⟩
    have hagree := (S.got_iff hu).1 hgot
    have hperm : uses.settings.Perm (S.settings a) := by
      refine (List.perm_ext_iff_of_nodup ?_ ?_).2 fun s => ⟨fun hs => ?_, fun hs => ?_⟩
      · exact (hu.settings_distinct hgroup).imp fun hn he => hn (congrArg Setting.name he)
      · exact (S.distinct a).imp fun hn he => hn (congrArg Setting.name he)
      · obtain ⟨u, hum, rfl⟩ := TagUses.mem_settings.1 hs
        have hr := (hfull _ (List.mem_of_find?_eq_some (hu.fitting u hum).1)).1
        exact (hagree _ hr).1 hs
      · exact (hagree s (S.named hs)).2 hs
    refine ⟨hperm, (S.apart_iff a).2 ?_⟩
    exact (hperm.pairwise_iff Setting.Apart.symm).1 (hu.settings_apart hgroup)
  · rintro ⟨hperm, ha⟩
    have hpair := (hperm.pairwise_iff Setting.Apart.symm).2 ((S.apart_iff a).1 ha)
    obtain ⟨uses, hu, rfl⟩ :=
      TagUses.exists_admitted (fun s hs => S.fits (hperm.mem_iff.1 hs)) hpair
    exact ⟨uses, hu, rfl, (S.got_iff hu).2 fun s _ => hperm.mem_iff⟩

end Slot

end MailSieve
