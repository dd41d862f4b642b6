import MailSieve.Json.Decode

/-! What decoders yield.
A decoder yields a property if every value it lets through has it. The ways to put decoders
together carry such properties along, so that of a record it is enough to say what each of its
members yields and why these suffice. -/

namespace MailSieve.Json

variable {ι ε E : Type} {α β : Type}

def Yields (f : ι → Except ε α) (P : α → Prop) : Prop := ∀ i a, f i = .ok a → P a

theorem bind_eq_ok {x : Except ε α} {f : α → Except ε β} {b : β} :
    (x >>= f) = .ok b ↔ ∃ a, x = .ok a ∧ f a = .ok b := by
  cases x <;> simp [bind, Except.bind]

theorem map_eq_ok {x : Except ε α} {f : α → β} {b : β} :
    x.map f = .ok b ↔ ∃ a, x = .ok a ∧ f a = b := by
  cases x <;> simp [Except.map]

theorem mapError_eq_ok {ε' : Type} {x : Except ε α} {f : ε → ε'} {a : α} :
    x.mapError f = .ok a ↔ x = .ok a := by
  cases x with
  | error e => exact iff_of_false (fun h => by cases h) (fun h => by cases h)
  | ok b => exact ⟨fun h => congrArg _ (Except.ok.inj h), fun h => congrArg _ (Except.ok.inj h)⟩

namespace Yields

variable {d : Decoder E α} {P Q : α → Prop}

theorem any {f : ι → Except ε α} : Yields f fun _ => True := fun _ _ _ => trivial

theorem never {e : ι → ε} : Yields (fun i => .error (e i)) P := fun _ _ h => by cases h

theorem option (h : Yields d P) : Yields (decodeOption d) fun o => ∀ a ∈ o, P a := by
  intro j o ho a ha
  cases ha
  unfold decodeOption at ho
  split at ho
  · cases ho
  · obtain ⟨b, hb, hba⟩ := map_eq_ok.1 ho
    cases hba
    exact h _ a hb

theorem list (h : Yields d P) : Yields (decodeList d) fun as => ∀ a ∈ as, P a := by
  have items (js : List Json) (as : List α) (ho : decodeItems d js = .ok as) : ∀ a ∈ as, P a := by
    induction js generalizing as with
    | nil =>
      cases ho
      simp
    | cons j js ih =>
      obtain ⟨a, ha, ho⟩ := bind_eq_ok.1 ho
      obtain ⟨as, has, ho⟩ := bind_eq_ok.1 ho
      cases ho
      exact List.forall_mem_cons.2 ⟨h j a ha, ih as has⟩
  intro j as ho
  unfold decodeList at ho
  split at ho
  · exact items _ as ho
  · cases ho

theorem checked {check : α → Except E α} (h : Yields d P)
    (hc : ∀ a b, check a = .ok b → Q a ∧ a = b) :
    Yields (decodeChecked d check) fun a => Q a ∧ P a := by
  intro j b ho
  obtain ⟨a, ha, hb⟩ := bind_eq_ok.1 ho
  obtain ⟨hq, rfl⟩ := hc a b (mapError_eq_ok.1 hb)
  exact ⟨hq, h j a ha⟩

theorem tagged {tag : Decoder E α} {content : α → Decoder E β} {R : β → Prop}
    (h : ∀ k, Yields (content k) R) : Yields (decodeTagged tag content) R := by
  intro j b ho
  unfold decodeTagged at ho
  split at ho
  · obtain ⟨⟨k, rest⟩, -, hb⟩ := bind_eq_ok.1 ho
    exact h k (.object rest) b hb
  · cases ho
  · next rest =>
    obtain ⟨k, -, hb⟩ := bind_eq_ok.1 ho
    split at hb
    · cases hb
    · exact h k (.array rest) b hb
  · cases ho

end Yields

namespace Record

theorem noMore_eq_ok {items : List Json} {u : Unit} :
    noMore (E := E) items = .ok u ↔ items = [] := by
  constructor
  · intro h
    unfold noMore at h
    split at h
    · rfl
    · cases h
    · cases h
  · rintro rfl
    rfl

/-- A list is decoded as the members that its items are, if it is not too long. -/
theorem ofItems_eq_ok {r : Record E α} {items : List Json} {a : α} :
    r.ofItems items = .ok a
      ↔ r.ofMembers (r.names.zip items) = .ok a ∧ items.length ≤ r.names.length := by
  unfold Record.ofItems Record.ofMembers
  dsimp only
  split
  next => simp
  next =>
    rw [bind_eq_ok]
    constructor
    · rintro ⟨b, hb, h⟩
      obtain ⟨_, hmore, hba⟩ := bind_eq_ok.1 h
      cases hba
      exact ⟨mapError_eq_ok.1 hb, List.drop_eq_nil_iff.1 (noMore_eq_ok.1 hmore)⟩
    · rintro ⟨ha, hlength⟩
      have hmore : noMore (E := E) (items.drop r.names.length) = .ok () :=
        noMore_eq_ok.2 (List.drop_eq_nil_iff.2 hlength)
      exact ⟨a, mapError_eq_ok.2 ha, bind_eq_ok.2 ⟨(), hmore, rfl⟩⟩

def Yields (r : Record E α) (P : α → Prop) : Prop := Json.Yields (fun ms => (r ms).result) P

namespace Yields

variable {d : Decoder E α} {P : α → Prop} {R : β → Prop} {x : Record E α} {name : String}

theorem any : x.Yields fun _ => True := Json.Yields.any

theorem seq {f : Record E (α → β)} (hf : f.Yields fun g => ∀ a, P a → R (g a)) (hx : x.Yields P) :
    (f <*> x).Yields R := by
  intro ms b ho
  change (Record.seq f x ms).result = .ok b at ho
  unfold Record.seq at ho
  dsimp only at ho
  split at ho
  next => cases ho
  next g hg =>
    obtain ⟨a, ha, hab⟩ := map_eq_ok.1 ho
    rw [← hab]
    exact hf ms g hg a (hx ms a ha)

theorem map {g : α → β} (hg : ∀ a, P a → R (g a)) (hx : x.Yields P) : (g <$> x).Yields R := by
  refine seq (f := Record.pure g) ?_ hx
  intro ms g' ho
  cases ho
  exact hg

theorem fieldOr {absent : Except (DecodeError E) α} (h : Json.Yields d P)
    (ha : ∀ a, absent = .ok a → P a) : (fieldOr name absent d).Yields P := by
  intro ms a ho
  unfold Record.fieldOr at ho
  dsimp only at ho
  split at ho
  · exact h _ a ho
  · exact ha a ho

theorem field (h : Json.Yields d P) : (field name d).Yields P :=
  fieldOr h fun _ ho => by cases ho

theorem optional (h : Json.Yields d P) : (optional name d).Yields fun o => ∀ a ∈ o, P a := by
  refine fieldOr h.option fun o ho => ?_
  cases ho
  simp

theorem default {a : α} (h : Json.Yields d P) (ha : P a) : (default name a d).Yields P := by
  refine fieldOr h fun b hb => ?_
  cases hb
  exact ha

theorem ofMembers (h : x.Yields P) : Json.Yields x.ofMembers P := by
  intro ms a ho
  unfold Record.ofMembers at ho
  dsimp only at ho
  split at ho
  · cases ho
  · exact h ms a ho

theorem ofItems (h : x.Yields P) : Json.Yields x.ofItems P := fun _ a ho =>
  h.ofMembers _ a (ofItems_eq_ok.1 ho).1

theorem decode (h : x.Yields P) : Json.Yields x.decode P := by
  intro j a ho
  unfold Record.decode at ho
  split at ho
  · exact h.ofMembers _ a ho
  · exact h.ofItems _ a ho
  · cases ho

end Yields

end Record

end MailSieve.Json
