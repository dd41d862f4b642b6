import MailSieve.Proofs.Json.Finds
import MailSieve.Proofs.Json.Yields

/-! Nothing broken is decoded.
A decoder of objects looks at every member, the ones it does not ask for included, and one of lists
at every item, so that a text that breaks off anywhere within a value is noticed. -/

namespace MailSieve.Json

variable {E : Type} {α β : Type}

/-- The decoder takes whole values only. -/
def Decoder.Sound (d : Decoder E α) : Prop := ∀ j a, d j = .ok a → j.fault? = none

theorem decodeNatural_sound : Decoder.Sound (decodeNatural (E := E)) := by
  rintro j n h
  cases j with
  | natural n => rfl
  | _ => cases h

theorem decodeString_sound : Decoder.Sound (decodeString (E := E)) := by
  rintro j s h
  cases j with
  | string s => rfl
  | _ => cases h

theorem Decoder.Sound.option {d : Decoder E α} (h : d.Sound) : Decoder.Sound (decodeOption d) := by
  intro j o ho
  unfold decodeOption at ho
  split at ho
  · rfl
  · obtain ⟨a, ha, -⟩ := map_eq_ok.1 ho
    exact h _ a ha

theorem Decoder.Sound.list {d : Decoder E α} (h : d.Sound) : Decoder.Sound (decodeList d) := by
  have items (js : List Json) (as : List α) (ho : decodeItems d js = .ok as) :
      faultItems? js = none := by
    induction js generalizing as with
    | nil => rfl
    | cons j js ih =>
      obtain ⟨a, ha, ho⟩ := bind_eq_ok.1 ho
      obtain ⟨as, has, -⟩ := bind_eq_ok.1 ho
      rw [faultItems?, h j a ha, Option.none_or, ih as has]
  intro j as ho
  unfold decodeList at ho
  split at ho
  · exact items _ as ho
  · cases ho

theorem faultMembers?_zip {names : List String} {items : List Json}
    (h : items.length ≤ names.length) : faultMembers? (names.zip items) = faultItems? items := by
  induction items generalizing names with
  | nil => rw [List.zip_nil_right, faultMembers?, faultItems?]
  | cons j items ih =>
    cases names with
    | nil => exact absurd h (Nat.not_succ_le_zero _)
    | cons name names =>
      rw [List.zip_cons_cons, faultItems?, faultMembers?, ih (Nat.le_of_succ_le_succ h)]

namespace Record

def Sound (r : Record E α) : Prop :=
  ∀ ms name j, (r ms).asked.lookup name = some none → ms.lookup name = some j → j.fault? = none

namespace Sound

variable {name : String} {d : Decoder E α} {x : Record E α}

theorem seq {f : Record E (α → β)} (hf : f.Sound) (hx : x.Sound) : (f <*> x).Sound := by
  intro ms name j ho hj
  change ((f ms).asked ++ (x ms).asked).lookup name = _ at ho
  rw [List.lookup_append, Option.or_eq_some_iff] at ho
  obtain ho | ⟨-, ho⟩ := ho
  · exact hf ms name j ho hj
  · exact hx ms name j ho hj

theorem map {g : α → β} (hx : x.Sound) : (g <$> x).Sound :=
  seq (f := Record.pure g) (fun _ _ _ ho => nomatch ho) hx

theorem fieldOr {absent : Except (DecodeError E) α} (h : d.Sound) :
    (fieldOr name absent d).Sound := by
  intro ms other j ho hj
  unfold Record.fieldOr at ho
  split at ho
  next i hi =>
    by_cases hn : other = name
    · subst hn
      cases hi.symm.trans hj
      dsimp only at ho
      rw [List.lookup_cons, beq_self_eq_true] at ho
      cases hd : d j with
      | ok a => exact h j a hd
      | error e =>
        rw [hd] at ho
        cases ho
    · dsimp only at ho
      rw [List.lookup_cons, beq_false_of_ne hn] at ho
      cases ho
  next hi =>
    by_cases hn : other = name
    · subst hn
      cases hi.symm.trans hj
    · rw [List.lookup_cons, beq_false_of_ne hn] at ho
      cases ho

theorem field (h : d.Sound) : (field name d).Sound := fieldOr h

theorem optional (h : d.Sound) : (optional name d).Sound := fieldOr h.option

theorem default {a : α} (h : d.Sound) : (default name a d).Sound := fieldOr h

/-- A name that was met is no longer asked for, so it is the first member of a name that counts. -/
theorem faultMembers?_of_firstError {all asked : List (String × Option (DecodeError E))}
    {ms : Members} (h : firstError all asked ms = none)
    (hr : ∀ name j, asked.lookup name = some none → ms.lookup name = some j → j.fault? = none) :
    faultMembers? ms = none := by
  induction ms generalizing asked with
  | nil => rfl
  | cons m ms ih =>
    obtain ⟨name, j⟩ := m
    have hrest {asked' : List (String × Option (DecodeError E))}
        (hself : asked'.lookup name ≠ some none)
        (hsub : ∀ other, asked'.lookup other = some none → asked.lookup other = some none)
        (other : String) (i : Json) (ho : asked'.lookup other = some none)
        (hi : ms.lookup other = some i) : i.fault? = none := by
      have hne : other ≠ name := by
        rintro rfl
        exact hself ho
      refine hr other i (hsub other ho) ?_
      rw [List.lookup_cons, beq_false_of_ne hne]
      exact hi
    rw [firstError] at h
    rw [faultMembers?]
    split at h
    next => cases h
    next hasked =>
      have hj := hr name j hasked (by rw [List.lookup_cons, beq_self_eq_true])
      rw [hj, Option.none_or]
      refine ih h (hrest (by simp [lookup_filter]) fun other ho => ?_)
      rw [lookup_filter] at ho
      split at ho
      · cases ho
      · exact ho
    next hasked =>
      split at h
      next => cases h
      next =>
        split at h
        next => cases h
        next hj =>
          rw [hj, Option.none_or]
          exact ih h (hrest (by simp [hasked]) fun _ ho => ho)

theorem ofMembers (hx : x.Sound) {ms : Members} {a : α} (h : x.ofMembers ms = .ok a) :
    faultMembers? ms = none := by
  unfold Record.ofMembers at h
  dsimp only at h
  split at h
  next => cases h
  next hnone => exact faultMembers?_of_firstError hnone (hx ms)

theorem decode (hx : x.Sound) : Decoder.Sound x.decode := by
  intro j a ho
  cases j with
  | object ms => exact hx.ofMembers ho
  | array items =>
    obtain ⟨ha, hlength⟩ := ofItems_eq_ok.1 ho
    exact (faultMembers?_zip hlength).symm.trans (hx.ofMembers ha)
  | _ => cases ho

end Sound

end Record

theorem decodeVariant_sound (known : List (String × α)) :
    Decoder.Sound (decodeVariant (E := E) known) := by
  intro j a ho
  obtain ⟨name, hname, -⟩ := bind_eq_ok.1 ho
  exact decodeString_sound j name hname

theorem findTag_fault? {tag : Decoder E α} (ht : tag.Sound) {met : Option α} {ms rest : Members}
    {k : α} (h : findTag tag met ms = .ok (k, rest)) : faultMembers? ms = none := by
  fun_induction findTag tag met ms generalizing rest with
  | case1 => cases h
  | case2 => rfl
  | case3 => cases h
  | case4 j ms ih =>
    obtain ⟨a, ha, h⟩ := bind_eq_ok.1 h
    rw [faultMembers?, ht j a ha, Option.none_or, ih a h]
  | case5 => cases h
  | case6 met name j ms _ hj ih =>
    obtain ⟨⟨a, more⟩, hfound, hk⟩ := bind_eq_ok.1 h
    cases hk
    rw [faultMembers?, hj, Option.none_or, ih hfound]

/-- The kind is looked for among all members, before any of them is decoded. -/
theorem decodeTagged_sound {tag : Decoder E α} {content : α → Decoder E β} (ht : tag.Sound) :
    Decoder.Sound (decodeTagged tag content) := by
  intro j b ho
  unfold decodeTagged at ho
  split at ho
  next ms =>
    obtain ⟨⟨k, rest⟩, h, -⟩ := bind_eq_ok.1 ho
    exact findTag_fault? ht h
  next => cases ho
  next j rest =>
    obtain ⟨a, ha, h⟩ := bind_eq_ok.1 ho
    split at h
    · cases h
    · next hrest => exact Option.or_eq_none_iff.2 ⟨ht j a ha, hrest⟩
  next => cases ho

end MailSieve.Json
