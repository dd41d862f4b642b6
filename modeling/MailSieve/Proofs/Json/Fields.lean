import MailSieve.Proofs.Json.Phrase

/-! What the members of an object say of a record.
A name that is asked for stands once, and its value says what the field is, or it does not stand at
all, and the field has its default. Of the members with other names it matters only that they do
not break off. -/

namespace MailSieve.Json

variable {E : Type} {α β : Type}

/-- The values of all members with one name. -/
def valuesOf (name : String) (ms : Members) : List Json := (ms.filter (·.1 == name)).map (·.2)

/-- What a field is that has these values, if `Means` tells what a value means. -/
inductive FieldOf (Means : Json → α → Prop) (absent : α) : List Json → α → Prop where
  | given {j : Json} {a : α} : Means j a → FieldOf Means absent [j] a
  | absent : FieldOf Means absent [] absent

section Values

variable {name other : String} {j : Json} {ms : Members}

theorem valuesOf_cons_self : valuesOf name ((name, j) :: ms) = j :: valuesOf name ms := by
  rw [valuesOf, List.filter_cons_of_pos (by simp)]
  rfl

theorem valuesOf_cons_of_ne (h : name ≠ other) :
    valuesOf other ((name, j) :: ms) = valuesOf other ms := by
  rw [valuesOf, List.filter_cons_of_neg (by simpa using h)]
  rfl

theorem lookup_eq_head? (name : String) (ms : Members) :
    ms.lookup name = (valuesOf name ms).head? := by
  induction ms with
  | nil => rfl
  | cons m ms ih =>
    obtain ⟨other, j⟩ := m
    by_cases h : name = other
    · subst h
      rw [List.lookup_cons_self, valuesOf_cons_self]
      rfl
    · rw [List.lookup_cons, beq_false_of_ne h, valuesOf_cons_of_ne (Ne.symm h)]
      exact ih

theorem lookup_map_of_not_mem {names : List String} (b : β) (h : name ∉ names) :
    (names.map (·, b)).lookup name = none := by
  rw [List.lookup_eq_none_iff]
  intro p hp
  obtain ⟨n, hn, rfl⟩ := List.mem_map.1 hp
  exact bne_iff_ne.2 fun he : name = n => h (he ▸ hn)

theorem faultMembers?_eq_none : faultMembers? ms = none ↔ ∀ m ∈ ms, m.2.fault? = none := by
  induction ms with
  | nil => exact ⟨fun _ => nofun, fun _ => rfl⟩
  | cons m ms ih => rw [faultMembers?, Option.or_eq_none_iff, List.forall_mem_cons, ih]

end Values

namespace Record

/-- No error is found where each name is met at most once, and not at all if it was met before, and
the members that are passed over are whole. -/
theorem firstError_map_eq_none {names remaining : List String} (hsub : remaining ⊆ names)
    (ms : Members) :
    firstError (names.map (·, (none : Option (DecodeError E)))) (remaining.map (·, none)) ms = none
      ↔ (∀ name ∈ names, (valuesOf name ms).length ≤ if name ∈ remaining then 1 else 0)
        ∧ ∀ m ∈ ms, m.1 ∉ names → m.2.fault? = none := by
  induction ms generalizing remaining with
  | nil => simp [firstError, valuesOf]
  | cons m ms ih =>
    obtain ⟨name, j⟩ := m
    rw [List.forall_mem_cons]
    by_cases hname : name ∈ names
    · by_cases hmet : name ∈ remaining
      · have hfilter : (remaining.map (·, (none : Option (DecodeError E)))).filter (·.1 != name)
            = (remaining.filter (· != name)).map (·, none) := List.filter_map
        rw [firstError, lookup_map_const none hmet]
        dsimp only
        rw [hfilter, ih fun n hn => hsub ((List.mem_filter.1 hn).1)]
        refine and_congr (forall₂_congr fun n _ => ?_)
          ⟨fun h => ⟨fun hn => absurd hname hn, h⟩, (·.2)⟩
        by_cases hn : name = n
        · subst hn
          rw [valuesOf_cons_self, if_pos hmet, if_neg (by simp)]
          simp
        · rw [valuesOf_cons_of_ne hn]
          simp [Ne.symm hn]
      · rw [firstError, lookup_map_of_not_mem none hmet, lookup_map_const none hname]
        refine iff_of_false (by simp) fun h => ?_
        have hlength := h.1 name hname
        rw [valuesOf_cons_self, if_neg hmet] at hlength
        exact Nat.not_succ_le_zero _ hlength
    · have hvalues (n : String) (hn : n ∈ names) : valuesOf n ((name, j) :: ms) = valuesOf n ms :=
        valuesOf_cons_of_ne fun he => hname (he ▸ hn)
      rw [firstError, lookup_map_of_not_mem none fun h => hname (hsub h),
        lookup_map_of_not_mem none hname]
      cases hj : j.fault? with
      | some f => simp [hname]
      | none =>
        change firstError _ _ ms = none ↔ _
        rw [ih hsub]
        refine and_congr (forall₂_congr fun n hn => ?_) ⟨fun h => ⟨fun _ => rfl, h⟩, (·.2)⟩
        rw [hvalues n hn]

/-- The record asks for `names`. `Q` says what its result is of members that repeat none of them. -/
structure Settles (names : List String) (r : Record E α) (Q : Members → α → Prop) : Prop where
  asked : ∀ ms a, (r ms).result = .ok a → (r ms).asked = names.map (·, none)
  result : ∀ ms a,
    Q ms a ↔ (r ms).result = .ok a ∧ ∀ name ∈ names, (valuesOf name ms).length ≤ 1

namespace Settles

variable {names names' : List String} {Q : Members → α → Prop}

theorem default {d : Decoder E α} {Means : Json → α → Prop} (name : String) (a : α)
    (h : ∀ j b, d j = .ok b ↔ Means j b) :
    (default name a d).Settles [name] fun ms => FieldOf Means a (valuesOf name ms) := by
  constructor
  · intro ms b hb
    unfold Record.default Record.fieldOr at hb ⊢
    split at hb
    · dsimp only at hb ⊢
      rw [hb]
      rfl
    · rfl
  · intro ms b
    rw [List.forall_mem_singleton, Record.default, Record.fieldOr, lookup_eq_head?]
    generalize valuesOf name ms = js
    constructor
    · intro hjs
      cases hjs with
      | given hj => exact ⟨(h _ b).2 hj, Nat.le_refl 1⟩
      | absent => exact ⟨rfl, Nat.zero_le 1⟩
    · rintro ⟨hb, hlength⟩
      cases js with
      | nil =>
        cases hb
        exact .absent
      | cons j js =>
        cases js with
        | nil => exact .given ((h j b).1 hb)
        | cons i js => exact absurd (Nat.le_of_succ_le_succ hlength) (Nat.not_succ_le_zero _)

theorem seq {f : Record E (α → β)} {x : Record E α} {P : Members → (α → β) → Prop}
    (hf : f.Settles names P) (hx : x.Settles names' Q) :
    (f <*> x).Settles (names ++ names') fun ms b => ∃ g, P ms g ∧ ∃ a, Q ms a ∧ g a = b := by
  constructor
  · intro ms b hb
    obtain ⟨g, hg, a, ha, -⟩ := seq_result_eq_ok.1 hb
    change (f ms).asked ++ (x ms).asked = _
    rw [hf.asked ms g hg, hx.asked ms a ha, List.map_append]
  · intro ms b
    rw [List.forall_mem_append]
    change _ ↔ (Record.seq f x ms).result = .ok b ∧ _
    rw [seq_result_eq_ok]
    constructor
    · rintro ⟨g, hg, a, ha, rfl⟩
      obtain ⟨hg, hnames⟩ := (hf.result ms g).1 hg
      obtain ⟨ha, hnames'⟩ := (hx.result ms a).1 ha
      exact ⟨⟨g, hg, a, ha, rfl⟩, hnames, hnames'⟩
    · rintro ⟨⟨g, hg, a, ha, rfl⟩, hnames, hnames'⟩
      exact ⟨g, (hf.result ms g).2 ⟨hg, hnames⟩, a, (hx.result ms a).2 ⟨ha, hnames'⟩, rfl⟩

theorem map {x : Record E α} (g : α → β) (hx : x.Settles names Q) :
    (g <$> x).Settles names fun ms b => ∃ a, Q ms a ∧ g a = b := by
  have hpure : (Record.pure (E := E) g).Settles [] fun _ h => g = h :=
    ⟨fun _ _ _ => rfl, fun _ _ => ⟨fun h => h ▸ ⟨rfl, nofun⟩, fun h => by cases h.1; rfl⟩⟩
  obtain ⟨hasked, hresult⟩ := seq hpure hx
  refine ⟨hasked, fun ms b => Iff.trans ?_ (hresult ms b)⟩
  simp

theorem iff {r : Record E α} {P : Members → α → Prop} (h : r.Settles names P)
    (hPQ : ∀ ms a, P ms a ↔ Q ms a) : r.Settles names Q :=
  ⟨h.asked, fun ms a => (hPQ ms a).symm.trans (h.result ms a)⟩

theorem ofMembers {r : Record E α} (h : r.Settles names Q) (ms : Members) (a : α) :
    r.ofMembers ms = .ok a ↔ (∀ m ∈ ms, m.1 ∉ names → m.2.fault? = none) ∧ Q ms a := by
  have hfirst := firstError_map_eq_none (E := E) (List.Subset.refl names) ms
  have hone (name : String) (hn : name ∈ names) : (if name ∈ names then 1 else 0) = 1 := if_pos hn
  constructor
  · intro ha
    unfold Record.ofMembers at ha
    dsimp only at ha
    split at ha
    · cases ha
    · next hnone =>
      rw [h.asked ms a ha, hfirst] at hnone
      exact ⟨hnone.2, (h.result ms a).2 ⟨ha, fun name hn => hone name hn ▸ hnone.1 name hn⟩⟩
  · rintro ⟨hwhole, hQ⟩
    obtain ⟨ha, hnames⟩ := (h.result ms a).1 hQ
    have hnone := hfirst.2 ⟨fun name hn => (hone name hn).symm ▸ hnames name hn, hwhole⟩
    rw [Record.ofMembers, h.asked ms a ha, hnone]
    exact ha

end Settles

/-- The members that a value gives to a record with these names: its own, or the items of a list
one for one. -/
inductive Listed (names : List String) : Json → Members → Prop where
  | object {ms : Members} : Listed names (.object ms) ms
  | array {items : List Json} : items.length ≤ names.length →
    Listed names (.array items) (names.zip items)

theorem Listed.whole {names : List String} {j : Json} {ms : Members} (h : Listed names j ms) :
    j.fault? = faultMembers? ms := by
  cases h with
  | object => rfl
  | array hlength => exact (faultMembers?_zip hlength).symm

theorem Settles.decode {names : List String} {r : Record E α} {Q : Members → α → Prop}
    (h : r.Settles names Q) (hempty : ∃ a, (r []).result = .ok a) (j : Json) (a : α) :
    r.decode j = .ok a
      ↔ ∃ ms, Listed names j ms ∧ (∀ m ∈ ms, m.1 ∉ names → m.2.fault? = none) ∧ Q ms a := by
  obtain ⟨b, hb⟩ := hempty
  have hnames : r.names = names := by simp [Record.names, h.asked [] b hb, Function.comp_def]
  cases j with
  | object ms =>
    change r.ofMembers ms = .ok a ↔ _
    rw [h.ofMembers]
    constructor
    · exact fun hQ => ⟨ms, .object, hQ⟩
    · rintro ⟨_, ⟨⟩, hQ⟩
      exact hQ
  | array items =>
    change r.ofItems items = .ok a ↔ _
    rw [ofItems_eq_ok, hnames, h.ofMembers]
    constructor
    · rintro ⟨hQ, hlength⟩
      exact ⟨_, .array hlength, hQ⟩
    · rintro ⟨_, hlength | hlength, hQ⟩
      exact ⟨hQ, hlength⟩
  | _ => exact iff_of_false nofun nofun

/-- What is decoded from a text is what the members say that the text gives to the record. -/
theorem Settles.decodeText_eq_ok {names : List String} {r : Record E α}
    {Q : Members → α → Prop} (h : r.Settles names Q) (hr : r.Sound)
    (hempty : ∃ a, (r []).result = .ok a) (top : Interest) (text : String) (a : α) :
    decodeText top r.decode text = .ok a
      ↔ ∃ j, TextPhrase top text j ∧ ∃ ms, Listed names j ms ∧ Q ms a := by
  rw [Json.decodeText_eq_ok hr.decode]
  refine exists_congr fun j => and_congr_right fun hj => ?_
  rw [h.decode hempty]
  constructor
  · rintro ⟨ms, hms, -, hQ⟩
    exact ⟨ms, hms, hQ⟩
  · rintro ⟨ms, hms, hQ⟩
    have hwhole := faultMembers?_eq_none.1 (hms.whole.symm.trans hj.whole)
    exact ⟨ms, hms, fun m hm _ => hwhole m hm, hQ⟩

end Record

end MailSieve.Json
