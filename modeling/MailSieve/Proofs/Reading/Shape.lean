import MailSieve.Proofs.Reading.Slot

/-! The slots of commands and tests of fixed shape.
Each list of rules has a slot that covers it. What two tags of a shape exclude is said by the slot's
`apart`. -/

namespace MailSieve

open Phrase

variable {α κ : Type} {rules : List TagRule} {uses : TagUses}

theorem MatchType.mem_values (m : MatchType) : m ∈ values := by cases m <;> decide

theorem MatchType.word_injective {m n : MatchType} (h : m.word = n.word) : m = n :=
  Option.some.inj (by rw [← ofWord?_word, h, ofWord?_word])

theorem RelationalKind.mem_values (k : RelationalKind) : k ∈ values := by cases k <;> decide

theorem AddressPart.mem_values (p : AddressPart) : p ∈ values := by cases p <;> decide

theorem AddressPart.word_injective {p q : AddressPart} (h : p.word = q.word) : p = q :=
  Option.some.inj (by rw [← ofWord?_word, h, ofWord?_word])

namespace TagUses

theorem findSome?_iff {keys : List κ} {pick : κ → Option α} {P : α → Prop}
    (hp : ∀ k a, pick k = some a → P a) (hk : ∀ a, P a → ∃ k ∈ keys, pick k = some a)
    (h1 : ∀ a b, P a → P b → a = b) (a : α) : keys.findSome? pick = some a ↔ P a := by
  constructor
  · intro h
    obtain ⟨k, -, hka⟩ := List.exists_of_findSome?_eq_some h
    exact hp k a hka
  · intro ha
    obtain ⟨k, hkm, hka⟩ := hk a ha
    have hsome : (keys.findSome? pick).isSome = true :=
      List.findSome?_isSome_iff.2 ⟨k, hkm, by rw [hka]; rfl⟩
    obtain ⟨b, hb⟩ := Option.isSome_iff_exists.1 hsome
    obtain ⟨j, -, hjb⟩ := List.exists_of_findSome?_eq_some hb
    rw [hb, h1 b a (hp j b hjb) ha]

end TagUses

namespace Slot

def vocabulary (values : List κ) (word : κ → String) (g : String) (hall : ∀ k, k ∈ values)
    (hword : ∀ j k, word j = word k → j = k)
    (hr : ∀ k, ruleOf rules (word k) = some ⟨word k, .none, some g⟩) : Slot rules (Option κ) :=
  choice (values.map word) g (fun k => ⟨word k, .none⟩)
    (fun uses => values.find? fun k => uses.has (word k))
    (fun k => List.mem_map_of_mem (hall k))
    (fun k => ⟨_, g, hr k, rfl, rfl, List.mem_singleton_self g⟩)
    (by
      rintro ⟨n, v⟩ hn hv
      obtain ⟨k, -, rfl⟩ := List.mem_map.1 hn
      have hk := hv _ (hr k)
      cases v <;> first | exact ⟨k, rfl⟩ | cases hk)
    (by
      intro uses hu
      rw [List.find?_eq_findSome?_guard]
      refine TagUses.findSome?_iff (P := fun k => ⟨word k, .none⟩ ∈ uses.settings) ?_ ?_ ?_
      · intro j k hk
        obtain ⟨rfl, hj⟩ := Option.guard_eq_some_iff.1 hk
        exact (hu.has_iff (hr j) rfl rfl).1 hj
      · intro k hk
        exact ⟨k, hall k, Option.guard_eq_some_iff.2 ⟨rfl, (hu.has_iff (hr k) rfl rfl).2 hk⟩⟩
      · intro j k hj hk
        exact hword j k (congrArg Setting.name (hu.setting_eq hj hk (hr j) (hr k) rfl rfl)))

def relational
    (hr : ∀ k : RelationalKind, ruleOf rules k.word = some ⟨k.word, .operator, some "match"⟩) :
    Slot rules (Option Relational) :=
  choice (RelationalKind.values.map (·.word)) "match" (fun r => ⟨r.kind.word, .operator r.operator⟩)
    (fun uses => RelationalKind.values.findSome? uses.relational?)
    (fun r => List.mem_map_of_mem r.kind.mem_values)
    (fun r => ⟨_, _, hr r.kind, rfl, rfl, List.mem_singleton_self _⟩)
    (by
      rintro ⟨n, v⟩ hn hv
      obtain ⟨k, -, rfl⟩ := List.mem_map.1 hn
      have hk := hv _ (hr k)
      cases v <;> first | exact ⟨⟨k, _⟩, rfl⟩ | cases hk)
    (by
      intro uses hu
      have hpick k r : uses.relational? k = some r
          ↔ r.kind = k ∧ ⟨r.kind.word, .operator r.operator⟩ ∈ uses.settings := by
        rw [TagUses.relational?]
        constructor
        · intro h
          split at h
          · next op hv =>
            cases h
            exact ⟨rfl, (hu.value?_eq_some (hr k) rfl).1 hv⟩
          · cases h
        · rintro ⟨rfl, hm⟩
          rw [(hu.value?_eq_some (hr r.kind) rfl).2 hm]
      refine TagUses.findSome?_iff (fun k r h => ((hpick k r).1 h).2) ?_ ?_
      · intro r h
        exact ⟨r.kind, r.kind.mem_values, (hpick r.kind r).2 ⟨rfl, h⟩⟩
      · rintro ⟨j, p⟩ ⟨k, q⟩ hj hk
        have he := hu.setting_eq hj hk (hr j) (hr k) rfl rfl
        cases j <;> cases k <;> simp_all [RelationalKind.word])

def convert {β : Type} (S : Slot rules α) (f : α → β) (g : β → α) (hfg : ∀ b, f (g b) = b)
    (hgf : ∀ a, g (f a) = a) : Slot rules β where
  names := S.names
  groups := S.groups
  settings b := S.settings (g b)
  apart b := S.apart (g b)
  got uses := f (S.got uses)
  named := S.named
  fits := S.fits
  distinct b := S.distinct (g b)
  apart_iff b := S.apart_iff (g b)
  got_iff {_ b} hu := by
    rw [← S.got_iff hu]
    exact ⟨fun h => by rw [← h, hgf], fun h => by rw [h, hfg]⟩

def matchType (hr : ∀ m : MatchType, ruleOf rules m.word = some ⟨m.word, .none, some "match"⟩) :
    Slot rules (Option MatchType) :=
  vocabulary MatchType.values MatchType.word "match" MatchType.mem_values
    (fun _ _ => MatchType.word_injective) hr

def part (hr : ∀ p : AddressPart, ruleOf rules p.word = some ⟨p.word, .none, some "part"⟩) :
    Slot rules (Option AddressPart) :=
  vocabulary AddressPart.values AddressPart.word "part" AddressPart.mem_values
    (fun _ _ => AddressPart.word_injective) hr

theorem disjoint {ns ms : List String} (h : (ns.all fun n => !ms.contains n) = true) :
    ∀ n ∈ ns, n ∉ ms := by
  simpa using h

/-- The rules hold those of all matches. -/
structure Matches (rules : List TagRule) : Prop where
  matchType : ∀ m : MatchType, ruleOf rules m.word = some ⟨m.word, .none, some "match"⟩
  relational : ∀ k : RelationalKind, ruleOf rules k.word = some ⟨k.word, .operator, some "match"⟩
  comparator :
    ruleOf rules "comparator" = some ⟨"comparator", .string, some "comparator"⟩

def options (h : Matches rules) : Slot rules MatchOptions :=
  (both (either (matchType h.matchType) (relational h.relational) (disjoint rfl) rfl rfl)
      (string "comparator" "comparator" h.comparator) (disjoint rfl) (disjoint rfl)).convert
    (fun x => ⟨x.1.1, x.1.2, x.2⟩) (fun o => ((o.matchType, o.relational), o.comparator))
    (fun _ => rfl) (fun _ => rfl)

def transform (hraw : ruleOf rules "raw" = some ⟨"raw", .none, some "transform"⟩)
    (htext : ruleOf rules "text" = some ⟨"text", .none, some "transform"⟩)
    (hcontent : ruleOf rules "content" = some ⟨"content", .strings, some "transform"⟩) :
    Slot rules (Option BodyTransform) :=
  choice ["raw", "text", "content"] "transform"
    (fun
      | .raw => ⟨"raw", .none⟩
      | .text => ⟨"text", .none⟩
      | .content types => ⟨"content", .strings types⟩)
    TagUses.transform?
    (by
      rintro (_ | _ | _) <;> simp)
    (by
      rintro (_ | _ | types)
      · exact ⟨_, _, hraw, rfl, rfl, List.mem_singleton_self _⟩
      · exact ⟨_, _, htext, rfl, rfl, List.mem_singleton_self _⟩
      · exact ⟨_, _, hcontent, rfl, rfl, List.mem_singleton_self _⟩)
    (by
      rintro ⟨n, v⟩ hn hv
      simp only [List.mem_cons, List.not_mem_nil, or_false] at hn
      obtain rfl | rfl | rfl := hn
      · have hk := hv _ hraw
        cases v <;> first | exact ⟨.raw, rfl⟩ | cases hk
      · have hk := hv _ htext
        cases v <;> first | exact ⟨.text, rfl⟩ | cases hk
      · have hk := hv _ hcontent
        cases v <;> first | exact ⟨.content _, rfl⟩ | cases hk)
    (by
      intro uses hu t
      have hr := hu.has_iff hraw rfl rfl
      have ht := hu.has_iff htext rfl rfl
      have hc l := (TagUses.strings?_eq_some (l := l)).trans (hu.value?_eq_some hcontent rfl)
      rw [TagUses.transform?]
      split
      · next h =>
        have hraw' := hr.1 h
        cases t with
        | raw => exact iff_of_true rfl hraw'
        | text =>
          refine iff_of_false nofun fun hm => ?_
          simpa using hu.setting_eq hraw' hm hraw htext rfl rfl
        | content l =>
          refine iff_of_false nofun fun hm => ?_
          simpa using hu.setting_eq hraw' hm hraw hcontent rfl rfl
      · next h =>
        split
        · next h' =>
          have htext' := ht.1 h'
          cases t with
          | raw => exact iff_of_false nofun fun hm => h (hr.2 hm)
          | text => exact iff_of_true rfl htext'
          | content l =>
            refine iff_of_false nofun fun hm => ?_
            simpa using hu.setting_eq htext' hm htext hcontent rfl rfl
        · next h' =>
          cases t with
          | raw => exact iff_of_false (by simp) fun hm => h (hr.2 hm)
          | text => exact iff_of_false (by simp) fun hm => h' (ht.2 hm)
          | content l => simp [← hc l])

theorem options_apart (h : Matches rules) (o : MatchOptions) :
    (options h).apart o ↔ ¬ (o.matchType.isSome ∧ o.relational.isSome) := by
  obtain ⟨m, r, s⟩ := o
  cases m <;> cases r <;> simp [options, convert, both, either, append, matchType, vocabulary,
    relational, string, valued, choice, settingOf]

end Slot

namespace Shape

open Slot

theorem matches_matching : Matches TagRules.matching :=
  ⟨fun m => by cases m <;> rfl, fun k => by cases k <;> rfl, rfl⟩

def matching : Slot TagRules.matching MatchOptions := options matches_matching

theorem matches_address : Matches TagRules.address :=
  ⟨fun m => by cases m <;> rfl, fun k => by cases k <;> rfl, rfl⟩

def address : Slot TagRules.address (Option AddressPart × MatchOptions) :=
  both (part fun p => by cases p <;> rfl) (options matches_address) (disjoint rfl) (disjoint rfl)

theorem address_apart (a : Option AddressPart × MatchOptions) :
    address.apart a ↔ ¬ (a.2.matchType.isSome ∧ a.2.relational.isSome) := by
  rw [← options_apart matches_address]
  exact ⟨fun h => h.2.1, fun h => ⟨trivial, h, trivial⟩⟩

theorem matches_body : Matches TagRules.body :=
  ⟨fun m => by cases m <;> rfl, fun k => by cases k <;> rfl, rfl⟩

def body : Slot TagRules.body (Option BodyTransform × MatchOptions) :=
  both (transform rfl rfl rfl) (options matches_body) (disjoint rfl) (disjoint rfl)

theorem body_apart (a : Option BodyTransform × MatchOptions) :
    body.apart a ↔ ¬ (a.2.matchType.isSome ∧ a.2.relational.isSome) := by
  rw [← options_apart matches_body]
  exact ⟨fun h => h.2.1, fun h => ⟨trivial, h, trivial⟩⟩

theorem matches_date : Matches TagRules.date :=
  ⟨fun m => by cases m <;> rfl, fun k => by cases k <;> rfl, rfl⟩

def date : Slot TagRules.date ((Option StringLit × Bool) × MatchOptions) :=
  both (either (string "zone" "zone" rfl) (flag "originalzone" "zone" rfl) (disjoint rfl) rfl rfl)
    (options matches_date) (disjoint rfl) (disjoint rfl)

theorem date_apart (a : (Option StringLit × Bool) × MatchOptions) :
    date.apart a ↔ ¬ (a.1.1.isSome ∧ a.1.2) ∧ ¬ (a.2.matchType.isSome ∧ a.2.relational.isSome) := by
  have hz : stringSetting "zone" a.1.1 = [] ∨ flagSetting "originalzone" a.1.2 = []
      ↔ ¬ (a.1.1.isSome ∧ a.1.2) := by
    cases a.1.1 <;> cases a.1.2 <;> simp [stringSetting, settingOf, flagSetting]
  rw [← options_apart matches_date, ← hz]
  exact ⟨fun h => ⟨h.1.2.2, h.2.1⟩, fun h => ⟨⟨trivial, trivial, h.1⟩, h.2, trivial⟩⟩

theorem matches_currentDate : Matches TagRules.currentDate :=
  ⟨fun m => by cases m <;> rfl, fun k => by cases k <;> rfl, rfl⟩

def currentDate : Slot TagRules.currentDate (Option StringLit × MatchOptions) :=
  both (string "zone" "zone" rfl) (options matches_currentDate) (disjoint rfl) (disjoint rfl)

theorem currentDate_apart (a : Option StringLit × MatchOptions) :
    currentDate.apart a ↔ ¬ (a.2.matchType.isSome ∧ a.2.relational.isSome) := by
  rw [← options_apart matches_currentDate]
  exact ⟨fun h => h.2.1, fun h => ⟨trivial, h, trivial⟩⟩

def duplicate : Slot TagRules.duplicate
    ((((Option StringLit) × (Option StringLit × Option StringLit)) × Option NumberLit) × Bool) :=
  both
    (both
      (both (string "handle" "handle" rfl)
        (either (string "header" "header" rfl) (string "uniqueid" "header" rfl) (disjoint rfl) rfl
          rfl)
        (disjoint rfl) (disjoint rfl))
      (number "seconds" "seconds" rfl) (disjoint rfl) (disjoint rfl))
    (flag "last" "last" rfl) (disjoint rfl) (disjoint rfl)

theorem duplicate_apart
    (a : (((Option StringLit) × (Option StringLit × Option StringLit)) × Option NumberLit) × Bool) :
    duplicate.apart a ↔ ¬ (a.1.1.2.1.isSome ∧ a.1.1.2.2.isSome) := by
  have hh : stringSetting "header" a.1.1.2.1 = [] ∨ stringSetting "uniqueid" a.1.1.2.2 = []
      ↔ ¬ (a.1.1.2.1.isSome ∧ a.1.1.2.2.isSome) := by
    cases a.1.1.2.1 <;> cases a.1.1.2.2 <;> simp [stringSetting, settingOf]
  rw [← hh]
  exact ⟨fun h => h.1.1.2.1.2.2, fun h =>
    ⟨⟨⟨trivial, ⟨trivial, trivial, h⟩, trivial⟩, trivial, trivial⟩, trivial, trivial⟩⟩

def keep : Slot TagRules.keep (Option StringList) := strings "flags" "flags" rfl

def fileInto : Slot TagRules.fileInto ((Bool × Bool) × Option StringList) :=
  both
    (both (flag "copy" "copy" rfl) (flag "create" "create" rfl) (disjoint rfl) (disjoint rfl))
    (strings "flags" "flags" rfl) (disjoint rfl) (disjoint rfl)

def redirect : Slot TagRules.redirect Bool := flag "copy" "copy" rfl

def vacation : Slot TagRules.vacation
    ((((((Option NumberLit × Option NumberLit) × Option StringLit) × Option StringLit)
      × Option StringList) × Bool) × Option StringLit) :=
  both
    (both
      (both
        (both
          (both
            (either (number "days" "interval" rfl) (number "seconds" "interval" rfl) (disjoint rfl)
              rfl rfl)
            (string "subject" "subject" rfl) (disjoint rfl) (disjoint rfl))
          (string "from" "from" rfl) (disjoint rfl) (disjoint rfl))
        (strings "addresses" "addresses" rfl) (disjoint rfl) (disjoint rfl))
      (flag "mime" "mime" rfl) (disjoint rfl) (disjoint rfl))
    (string "handle" "handle" rfl) (disjoint rfl) (disjoint rfl)

theorem vacation_apart
    (a : ((((((Option NumberLit × Option NumberLit) × Option StringLit) × Option StringLit)
      × Option StringList) × Bool) × Option StringLit)) :
    vacation.apart a ↔ ¬ (a.1.1.1.1.1.1.isSome ∧ a.1.1.1.1.1.2.isSome) := by
  have hi : numberSetting "days" a.1.1.1.1.1.1 = [] ∨ numberSetting "seconds" a.1.1.1.1.1.2 = []
      ↔ ¬ (a.1.1.1.1.1.1.isSome ∧ a.1.1.1.1.1.2.isSome) := by
    cases a.1.1.1.1.1.1 <;> cases a.1.1.1.1.1.2 <;> simp [numberSetting, settingOf]
  rw [← hi]
  exact ⟨fun h => h.1.1.1.1.1.2.2, fun h =>
    ⟨⟨⟨⟨⟨⟨trivial, trivial, h⟩, trivial, trivial⟩, trivial, trivial⟩, trivial, trivial⟩, trivial,
      trivial⟩, trivial, trivial⟩⟩

def notify : Slot TagRules.notify
    (((Option StringLit × Option Importance) × Option StringList) × Option StringLit) :=
  both
    (both
      (both (string "from" "from" rfl) (importance "importance" "importance" rfl) (disjoint rfl)
        (disjoint rfl))
      (strings "options" "options" rfl) (disjoint rfl) (disjoint rfl))
    (string "message" "message" rfl) (disjoint rfl) (disjoint rfl)

theorem ruleOf_over : ruleOf TagRules.size "over" = some ⟨"over", .none, some "size"⟩ := rfl

theorem ruleOf_under : ruleOf TagRules.size "under" = some ⟨"under", .none, some "size"⟩ := rfl

def size : Slot TagRules.size (Option Bool) :=
  choice ["over", "under"] "size" (fun above => ⟨if above then "over" else "under", .none⟩)
    (fun uses =>
      if uses.has "over" then some true else if uses.has "under" then some false else none)
    (by
      rintro (_ | _) <;> decide)
    (by
      rintro (_ | _)
      · exact ⟨_, _, ruleOf_under, rfl, rfl, List.mem_singleton_self _⟩
      · exact ⟨_, _, ruleOf_over, rfl, rfl, List.mem_singleton_self _⟩)
    (by
      rintro ⟨n, v⟩ hn hv
      simp only [List.mem_cons, List.not_mem_nil, or_false] at hn
      obtain rfl | rfl := hn
      · have hk := hv _ ruleOf_over
        cases v <;> first | exact ⟨true, rfl⟩ | cases hk
      · have hk := hv _ ruleOf_under
        cases v <;> first | exact ⟨false, rfl⟩ | cases hk)
    (by
      intro uses hu above
      have ho := hu.has_iff ruleOf_over rfl rfl
      have hn := hu.has_iff ruleOf_under rfl rfl
      split
      · next h =>
        cases above with
        | true => exact iff_of_true rfl (ho.1 h)
        | false =>
          refine iff_of_false (by simp) fun hm => ?_
          simpa using hu.setting_eq (ho.1 h) hm ruleOf_over ruleOf_under rfl rfl
      · next h =>
        cases above with
        | true => exact iff_of_false (by simp) fun hm => h (ho.2 hm)
        | false => simpa using hn)

theorem size_got (hu : uses.Admitted TagRules.size) :
    size.got uses = if uses.isEmpty then none else some (uses.has "over") := by
  cases uses with
  | nil => rfl
  | cons u us =>
    obtain ⟨rule, v⟩ := u
    obtain ⟨hr, hk⟩ := hu.fitting ⟨rule, v⟩ List.mem_cons_self
    have hs : ⟨rule.name, v⟩ ∈ TagUses.settings (⟨rule, v⟩ :: us) := List.mem_cons_self
    have hm : rule ∈ TagRules.size := List.mem_of_find?_eq_some hr
    show (if _ then some true else if _ then some false else none) = some _
    split
    · next h => rw [h]
    · next h =>
      rw [if_pos, Bool.eq_false_iff.2 h]
      simp only [TagRules.size, List.mem_cons, List.not_mem_nil, or_false] at hm
      obtain rfl | rfl := hm
      · cases v <;> first | exact absurd ((hu.has_iff ruleOf_over rfl rfl).2 hs) h | cases hk
      · cases v <;> first | exact (hu.has_iff ruleOf_under rfl rfl).2 hs | cases hk

theorem ruleOf_modifier (m : SetModifier) :
    ruleOf TagRules.set m.word = some ⟨m.word, .none, none⟩ := by
  cases m <;> rfl

/-- The modifiers of `set` are kept in the order of the source. -/
theorem admitted_set {ss : List Setting} {ms : List SetModifier} :
    (∃ uses : TagUses, uses.Admitted TagRules.set ∧ uses.settings = ss ∧ uses.modifiers = ms)
      ↔ ss = ms.map fun m => ⟨m.word, .none⟩ := by
  constructor
  · rintro ⟨uses, hu, rfl, rfl⟩
    have hf := hu.fitting
    clear hu
    induction uses with
    | nil => rfl
    | cons u uses ih =>
      obtain ⟨rule, v⟩ := u
      obtain ⟨hr, hk⟩ := hf ⟨rule, v⟩ List.mem_cons_self
      have hm : rule ∈ TagRules.set := List.mem_of_find?_eq_some hr
      obtain ⟨m, -, rfl⟩ := List.mem_map.1 hm
      have hih := ih fun u hu => hf u (List.mem_cons_of_mem _ hu)
      have hv : v = .none := by cases v <;> first | rfl | cases hk
      have hmod : TagUses.modifiers (⟨⟨m.word, .none, none⟩, v⟩ :: uses)
          = m :: TagUses.modifiers uses :=
        List.filterMap_cons_some (SetModifier.ofWord?_word m)
      rw [hmod, List.map_cons, ← hih, hv]
      rfl
  · rintro rfl
    refine ⟨ms.map fun m => ⟨⟨m.word, .none, none⟩, .none⟩, ⟨?_, ?_⟩, ?_, ?_⟩
    · rintro u hu
      obtain ⟨m, -, rfl⟩ := List.mem_map.1 hu
      exact ⟨ruleOf_modifier m, rfl⟩
    · exact List.pairwise_map.2 (List.pairwise_of_forall fun _ _ => .inl rfl)
    · rw [TagUses.settings, List.map_map]
      rfl
    · have hword : (fun u : TagUse => SetModifier.ofWord? u.rule.name)
          ∘ (fun m : SetModifier => ⟨⟨m.word, .none, none⟩, .none⟩) = some := by
        funext m
        exact SetModifier.ofWord?_word m
      rw [TagUses.modifiers, List.filterMap_map, hword, List.filterMap_some]

end Shape

end MailSieve
