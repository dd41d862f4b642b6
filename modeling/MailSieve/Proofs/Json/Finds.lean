import MailSieve.Interchange.Encode
import MailSieve.Json.Decode
import MailSieve.Proofs.Json.Reread
import MailSieve.Proofs.Json.Yields

/-! Written members and the records that find them.
A value stands for a result, under a condition, if it is decoded as the result where the condition
holds and refused where it does not. A second condition says when the value is plain. The members of
an object stand for the parts of a record one after the other, so that of a record it is enough to
say what each of its members stands for. -/

namespace MailSieve.Json

variable {E : Type} {α β : Type}

/-- The value is whole, and plain if `F` holds. It is decoded if and only if `P` holds, and then as
`a`. -/
structure Denotes (d : Decoder E α) (j : Json) (P F : Prop) (a : α) : Prop where
  whole : j.fault? = none
  plain : F → j.Plain
  decodes : ∀ b, d j = .ok b ↔ P ∧ a = b

theorem Denotes.iff {d : Decoder E α} {j : Json} {P Q F G : Prop} {a : α} (h : Denotes d j P F a)
    (hP : P ↔ Q) (hF : F ↔ G) : Denotes d j Q G a :=
  ⟨h.whole, fun hg => h.plain (hF.2 hg), fun b => (h.decodes b).trans (and_congr_left' hP)⟩

theorem Denotes.map {d : Decoder E α} {j : Json} {P F : Prop} {a : α} (h : Denotes d j P F a)
    (f : α → β) : Denotes (fun j => (d j).map f) j P F (f a) := by
  refine ⟨h.whole, h.plain, fun b => ?_⟩
  rw [map_eq_ok]
  constructor
  · rintro ⟨c, hc, rfl⟩
    obtain ⟨hP, rfl⟩ := (h.decodes c).1 hc
    exact ⟨hP, rfl⟩
  · rintro ⟨hP, rfl⟩
    exact ⟨a, (h.decodes a).2 ⟨hP, rfl⟩, rfl⟩

theorem denotes_of_ok {d : Decoder E α} {j : Json} {F : Prop} {a : α} (hw : j.fault? = none)
    (hp : F → j.Plain) (h : d j = .ok a) : Denotes d j True F a :=
  ⟨hw, hp, fun b => by rw [h, Except.ok.injEq, true_and]⟩

theorem plainMembers_append {ms ns : List (String × Json)} :
    PlainMembers (ms ++ ns) ↔ PlainMembers ms ∧ PlainMembers ns := by
  induction ms with
  | nil => simp [PlainMembers]
  | cons m ms ih => rw [List.cons_append, PlainMembers, PlainMembers, ih, and_assoc]

theorem lookup_of_not_mem {ms : Members} {name : String} (h : ∀ m ∈ ms, m.1 ≠ name)
    (rest : Members) : (ms ++ rest).lookup name = rest.lookup name := by
  induction ms with
  | nil => rfl
  | cons m ms ih =>
    rw [List.forall_mem_cons] at h
    rw [List.cons_append, List.lookup_cons, beq_false_of_ne h.1.symm]
    exact ih h.2

theorem lookup_filter {β : Type} (asked : List (String × β)) (name other : String) :
    (asked.filter (·.1 != name)).lookup other
      = if other = name then none else asked.lookup other := by
  induction asked with
  | nil => simp
  | cons x asked ih =>
    rw [List.filter_cons]
    by_cases hx : x.1 = name
    · rw [if_neg (by simp [hx]), ih, List.lookup_cons]
      by_cases h : other = name
      · rw [if_pos h, if_pos h]
      · rw [if_neg h, if_neg h, beq_false_of_ne (hx ▸ h)]
    · rw [if_pos (by simp [hx]), List.lookup_cons, List.lookup_cons, ih]
      by_cases h : other = name
      · rw [if_pos h, if_pos h, beq_false_of_ne (h ▸ Ne.symm hx)]
      · rw [if_neg h, if_neg h]

theorem lookup_map_const {β : Type} {names : List String} {name : String} (b : β)
    (h : name ∈ names) : (names.map (·, b)).lookup name = some b := by
  induction names with
  | nil => cases h
  | cons n names ih =>
    rw [List.map_cons, List.lookup_cons]
    by_cases hn : name = n
    · rw [hn, beq_self_eq_true]
    · rw [beq_false_of_ne hn]
      exact ih ((List.mem_cons.1 h).resolve_left hn)

theorem Record.seq_result_eq_ok {f : Record E (α → β)} {x : Record E α} {ms : Members} {b : β} :
    (Record.seq f x ms).result = .ok b
      ↔ ∃ g, (f ms).result = .ok g ∧ ∃ a, (x ms).result = .ok a ∧ g a = b := by
  constructor
  · intro h
    unfold Record.seq at h
    dsimp only at h
    split at h
    next => cases h
    next g hg =>
      obtain ⟨a, ha, hb⟩ := map_eq_ok.1 h
      exact ⟨g, hg, a, ha, hb⟩
  · rintro ⟨g, hg, a, ha, rfl⟩
    unfold Record.seq
    dsimp only
    rw [hg, ha]
    rfl

/-- What a record answers that asks for `names`: no error and `a` if `P` holds, no result if not. -/
structure Answer.Gives (names : List String) (P : Prop) (a : α) (r : Answer E α) : Prop where
  finds : P → r = ⟨names.map (·, none), .ok a⟩
  result : ∀ b, r.result = .ok b → P ∧ a = b

/-- The record asks for `names`, and wherever the members stand among others they give `a` under the
condition `P`. They are plain if `F` holds. -/
structure Record.Finds (names : List String) (r : Record E α) (P F : Prop) (ms : Members) (a : α) :
    Prop where
  whole : faultMembers? ms = none
  plain : F → PlainMembers ms
  named : (ms.map (·.1)).Sublist names
  answer : names.Nodup → ∀ pre post : Members, (∀ m ∈ pre, m.1 ∉ names) →
    (∀ m ∈ post, m.1 ∉ names) → (r (pre ++ (ms ++ post))).Gives names P a

namespace Record.Finds

variable {names names' : List String} {d : Decoder E α} {name : String} {j : Json} {a : α}
  {P Q F G : Prop}

theorem iff {r : Record E α} {ms : Members} (h : r.Finds names P F ms a) (hP : P ↔ Q)
    (hF : F ↔ G) : r.Finds names Q G ms a where
  whole := h.whole
  plain hg := h.plain (hF.2 hg)
  named := h.named
  answer hnodup pre post hpre hpost :=
    have ha := h.answer hnodup pre post hpre hpost
    ⟨fun hq => ha.finds (hP.2 hq), fun b hb => (ha.result b hb).imp_left hP.1⟩

theorem of_eq {r : Record E α} {ms ns : Members} (h : r.Finds names P F ms a) (hms : ms = ns) :
    r.Finds names P F ns a := hms ▸ h

theorem seq {f : Record E (α → β)} {x : Record E α} {g : α → β} {ms ns : Members}
    (hf : f.Finds names P F ms g) (hx : x.Finds names' Q G ns a) :
    (f <*> x).Finds (names ++ names') (P ∧ Q) (F ∧ G) (ms ++ ns) (g a) where
  whole := by rw [faultMembers?_append, hf.whole, Option.none_or, hx.whole]
  plain h := plainMembers_append.2 ⟨hf.plain h.1, hx.plain h.2⟩
  named := by
    rw [List.map_append]
    exact hf.named.append hx.named
  answer hnodup pre post hpre hpost := by
    obtain ⟨hn, hn', hdisjoint⟩ := List.nodup_append.1 hnodup
    have hms : ∀ m ∈ ms, m.1 ∈ names := fun m hm => hf.named.subset (List.mem_map_of_mem hm)
    have hns : ∀ m ∈ ns, m.1 ∈ names' := fun m hm => hx.named.subset (List.mem_map_of_mem hm)
    have hfirst := hf.answer hn pre (ns ++ post)
      (fun m hm h => hpre m hm (List.mem_append_left _ h)) fun m hm h => by
        obtain hm | hm := List.mem_append.1 hm
        · exact hdisjoint _ h _ (hns m hm) rfl
        · exact hpost m hm (List.mem_append_left _ h)
    have hsecond := hx.answer hn' (pre ++ ms) post
      (fun m hm h => by
        obtain hm | hm := List.mem_append.1 hm
        · exact hpre m hm (List.mem_append_right _ h)
        · exact hdisjoint _ (hms m hm) _ h rfl)
      fun m hm h => hpost m hm (List.mem_append_right _ h)
    rw [List.append_assoc] at hsecond
    change (Record.seq f x _).Gives _ _ _
    rw [List.append_assoc]
    refine ⟨fun h => ?_, fun b hb => ?_⟩
    · rw [Record.seq, hfirst.finds h.1, hsecond.finds h.2, List.map_append]
      rfl
    · obtain ⟨g', hg, a', ha, rfl⟩ := seq_result_eq_ok.1 hb
      obtain ⟨hP, rfl⟩ := hfirst.result g' hg
      obtain ⟨hQ, rfl⟩ := hsecond.result a' ha
      exact ⟨⟨hP, hQ⟩, rfl⟩

theorem map {x : Record E α} {ms : Members} (g : α → β) (hx : x.Finds names P F ms a) :
    (g <$> x).Finds names P F ms (g a) where
  whole := hx.whole
  plain := hx.plain
  named := hx.named
  answer hnodup pre post hpre hpost := by
    have ha := hx.answer hnodup pre post hpre hpost
    change (Record.seq (Record.pure g) x _).Gives _ _ _
    refine ⟨fun h => ?_, fun b hb => ?_⟩
    · rw [Record.seq, ha.finds h]
      rfl
    · obtain ⟨a', ha', rfl⟩ := map_eq_ok.1 hb
      obtain ⟨hP, rfl⟩ := ha.result a' ha'
      exact ⟨hP, rfl⟩

theorem fieldOr {absent : Except (DecodeError E) α} (h : Denotes d j P F a) :
    (fieldOr name absent d).Finds [name] P F [(name, j)] a where
  whole := by rw [faultMembers?, h.whole, Option.none_or, faultMembers?]
  plain hF := ⟨h.plain hF, trivial⟩
  named := .refl _
  answer _ pre post hpre _ := by
    have hlookup : (pre ++ ([(name, j)] ++ post)).lookup name = some j := by
      rw [lookup_of_not_mem (fun m hm he => hpre m hm (List.mem_singleton.2 he))]
      simp
    rw [Record.fieldOr, hlookup]
    refine ⟨fun hP => ?_, fun b hb => (h.decodes b).1 hb⟩
    dsimp only
    rw [(h.decodes a).2 ⟨hP, rfl⟩]
    rfl

theorem field (h : Denotes d j P F a) : (field name d).Finds [name] P F [(name, j)] a := fieldOr h

theorem default {b : α} (h : Denotes d j P F a) :
    (default name b d).Finds [name] P F [(name, j)] a := fieldOr h

/-- What is absent is left out, and nothing present is written as null. -/
theorem optional {f : α → Json} {P F : α → Prop} {o : Option α}
    (h : ∀ a ∈ o, Denotes d (f a) (P a) (F a) a ∧ f a ≠ .null) :
    (optional name d).Finds [name] (∀ a ∈ o, P a) (∀ a ∈ o, F a)
      (Interchange.optionalMember name f o) o := by
  cases o with
  | none =>
    refine ⟨rfl, fun _ => trivial, List.nil_sublist _, fun _ pre post hpre hpost => ?_⟩
    have hne : ∀ m ∈ pre ++ post, m.1 ≠ name := fun m hm he =>
      (List.mem_append.1 hm).elim (fun hm => hpre m hm (List.mem_singleton.2 he))
        fun hm => hpost m hm (List.mem_singleton.2 he)
    have hlookup : (pre ++ ([] ++ post)).lookup name = none := by
      simpa using lookup_of_not_mem hne []
    change (Record.fieldOr name _ _ _).Gives _ _ _
    rw [Record.fieldOr, Interchange.optionalMember, hlookup]
    refine ⟨fun _ => rfl, fun b hb => ?_⟩
    cases hb
    exact ⟨nofun, rfl⟩
  | some a =>
    obtain ⟨ha, hne⟩ := h a rfl
    have hsome : decodeOption d (f a) = (d (f a)).map some := by
      cases hj : f a with
      | null => exact absurd hj hne
      | _ => rfl
    refine (fieldOr (P := P a) ⟨ha.whole, ha.plain, fun b => ?_⟩).iff (by simp) (by simp)
    rw [hsome, map_eq_ok]
    constructor
    · rintro ⟨a', ha', rfl⟩
      obtain ⟨hP, rfl⟩ := (ha.decodes a').1 ha'
      exact ⟨hP, rfl⟩
    · rintro ⟨hP, rfl⟩
      exact ⟨a, (ha.decodes a).2 ⟨hP, rfl⟩, rfl⟩

theorem firstError_eq_none {asked all : List (String × Option (DecodeError E))} {ms : Members}
    (hms : ∀ m ∈ ms, asked.lookup m.1 = some none) (hnodup : (ms.map (·.1)).Nodup) :
    firstError all asked ms = none := by
  induction ms generalizing asked with
  | nil => rfl
  | cons m ms ih =>
    obtain ⟨name, j⟩ := m
    rw [List.forall_mem_cons] at hms
    rw [List.map_cons, List.nodup_cons] at hnodup
    rw [firstError, hms.1]
    refine ih (fun m hm => ?_) hnodup.2
    have hne : m.1 ≠ name := fun he => hnodup.1 (List.mem_map.2 ⟨m, hm, he⟩)
    rw [lookup_filter, if_neg hne]
    exact hms.2 m hm

theorem ofMembers {r : Record E α} {ms : Members} (h : r.Finds names P F ms a)
    (hnodup : names.Nodup) (b : α) : r.ofMembers ms = .ok b ↔ P ∧ a = b := by
  have hanswer := h.answer hnodup [] [] nofun nofun
  rw [List.nil_append, List.append_nil] at hanswer
  constructor
  · intro hb
    unfold Record.ofMembers at hb
    dsimp only at hb
    split at hb
    · cases hb
    · exact hanswer.result b hb
  · rintro ⟨hP, rfl⟩
    rw [Record.ofMembers, hanswer.finds hP, firstError_eq_none]
    · intro m hm
      exact lookup_map_const none (h.named.subset (List.mem_map_of_mem hm))
    · exact hnodup.sublist h.named

theorem decode {r : Record E α} {ms : Members} (h : r.Finds names P F ms a)
    (hnodup : names.Nodup) : Denotes r.decode (.object ms) P F a :=
  ⟨h.whole, h.plain, h.ofMembers hnodup⟩

end Record.Finds

section Decoders

variable {d : Decoder E α} {j : Json} {a : α} {P F : Prop}

theorem denotes_string (s : String) : Denotes (decodeString (E := E)) (.string s) True True s :=
  denotes_of_ok rfl id rfl

theorem denotes_bool (b : Bool) : Denotes (decodeBool (E := E)) (.bool b) True True b :=
  denotes_of_ok rfl id rfl

theorem denotes_natural (n : Nat) :
    Denotes (decodeNatural (E := E)) (.natural n) True (n < UInt64.size) n :=
  denotes_of_ok rfl id rfl

theorem denotes_word (n : UInt64) :
    Denotes (decodeWord (E := E)) (.natural n.toNat) True True n := by
  refine denotes_of_ok rfl (fun _ => n.toNat_lt) ?_
  change (if n.toNat < UInt64.size then pure (UInt64.ofNat n.toNat)
    else throw DecodeError.wrongType) = _
  rw [if_pos n.toNat_lt, UInt64.ofNat_toNat]
  rfl

theorem denotes_name {nothing : Decoder E Unit} {known : List (String × α)} {name : String}
    (h : known.lookup name = some a) :
    Denotes (decodeName nothing known) (.string name) True True a := by
  refine denotes_of_ok rfl id ?_
  change lookupVariant known name = _
  rw [lookupVariant, h]

theorem denotes_list {f : α → Json} {P F : α → Prop} {as : List α}
    (h : ∀ a ∈ as, Denotes d (f a) (P a) (F a) a) :
    Denotes (decodeList d) (.array (as.map f)) (∀ a ∈ as, P a) (∀ a ∈ as, F a) as := by
  suffices faultItems? (as.map f) = none ∧ ((∀ a ∈ as, F a) → PlainItems (as.map f))
      ∧ ∀ bs, decodeItems d (as.map f) = .ok bs ↔ (∀ a ∈ as, P a) ∧ as = bs from
    ⟨this.1, this.2.1, this.2.2⟩
  induction as with
  | nil => exact ⟨rfl, fun _ => trivial, fun bs => by simp [decodeItems]⟩
  | cons a as ih =>
    rw [List.forall_mem_cons] at h
    obtain ⟨hwhole, hplain, hdecodes⟩ := ih h.2
    refine ⟨by rw [List.map_cons, faultItems?, h.1.whole, Option.none_or, hwhole], fun hF => ?_,
      fun bs => ?_⟩
    · rw [List.forall_mem_cons] at hF
      exact ⟨h.1.plain hF.1, hplain hF.2⟩
    rw [List.map_cons, decodeItems, bind_eq_ok, List.forall_mem_cons]
    constructor
    · rintro ⟨b, hb, hbs⟩
      obtain ⟨cs, hcs, hbs⟩ := bind_eq_ok.1 hbs
      cases hbs
      obtain ⟨hP, rfl⟩ := (h.1.decodes b).1 hb
      obtain ⟨hall, rfl⟩ := (hdecodes cs).1 hcs
      exact ⟨⟨hP, hall⟩, rfl⟩
    · rintro ⟨⟨hP, hall⟩, rfl⟩
      exact ⟨a, (h.1.decodes a).2 ⟨hP, rfl⟩,
        bind_eq_ok.2 ⟨as, (hdecodes as).2 ⟨hall, rfl⟩, rfl⟩⟩

theorem denotes_checked {check : α → Except E α} {Q : Prop} (h : Denotes d j P F a)
    (hc : ∀ b, check a = .ok b ↔ Q ∧ a = b) :
    Denotes (decodeChecked d check) j (P ∧ Q) F a := by
  refine ⟨h.whole, h.plain, fun b => ?_⟩
  rw [decodeChecked, bind_eq_ok]
  constructor
  · rintro ⟨a', ha', hb⟩
    obtain ⟨hP, rfl⟩ := (h.decodes a').1 ha'
    obtain ⟨hQ, rfl⟩ := (hc b).1 (mapError_eq_ok.1 hb)
    exact ⟨⟨hP, hQ⟩, rfl⟩
  · rintro ⟨⟨hP, hQ⟩, rfl⟩
    exact ⟨a, (h.decodes a).2 ⟨hP, rfl⟩, mapError_eq_ok.2 ((hc a).2 ⟨hQ, rfl⟩)⟩

theorem findTag_some (tag : Decoder E α) {k : α} {ms : Members}
    (hms : faultMembers? ms = none) (hn : "type" ∉ ms.map (·.1)) :
    findTag tag (some k) ms = .ok (k, ms) := by
  induction ms with
  | nil => rfl
  | cons m ms ih =>
    obtain ⟨name, j⟩ := m
    rw [List.map_cons, List.mem_cons, not_or] at hn
    obtain ⟨hj, hms⟩ := Option.or_eq_none_iff.1 hms
    rw [findTag, if_neg (Ne.symm hn.1), hj, ih hms hn.2]
    rfl

theorem denotes_tagged {tag : Decoder E α} {content : α → Decoder E β} {type : String} {k : α}
    {ms : Members} {b : β} (hk : tag (.string type) = .ok k) (hn : "type" ∉ ms.map (·.1))
    (hc : Denotes (content k) (.object ms) P F b) :
    Denotes (decodeTagged tag content) (Interchange.typed type ms) P F b := by
  refine ⟨hc.whole, fun hF => ⟨trivial, hc.plain hF⟩, fun c => ?_⟩
  have hfind : findTag tag none (("type", .string type) :: ms) = .ok (k, ms) := by
    rw [findTag, if_pos rfl, hk]
    exact findTag_some tag hc.whole hn
  change (findTag tag none (("type", .string type) :: ms)).bind _ = _ ↔ _
  rw [hfind]
  exact hc.decodes c

theorem Record.Finds.tagged {names : List String} {r : Record E β} {tag : Decoder E α}
    {content : α → Decoder E β} {type : String} {k : α} {ms : Members} {b : β}
    (h : r.Finds names P F ms b) (hk : tag (.string type) = .ok k) (hc : content k = r.decode)
    (hnodup : ("type" :: names).Nodup) :
    Denotes (decodeTagged tag content) (Interchange.typed type ms) P F b := by
  rw [List.nodup_cons] at hnodup
  exact denotes_tagged hk (fun hm => hnodup.1 (h.named.subset hm)) (hc ▸ h.decode hnodup.2)

end Decoders

end MailSieve.Json
