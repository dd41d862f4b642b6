import MailSieve.Proofs.Reading.Cursor

/-! Parsers and the phrases that they read.
`Reads o p G F` joins the two directions. Whatever `p` passes over is a phrase of `G` for its
result. And `p` reads every phrase of `G`, where `F` holds of its result and of the token that
follows the phrase. The lemmas here follow the combinators of `Parse`. All trees are read without
locations. -/

namespace MailSieve

open Parse

structure Reads {α : Type} (o : ParseOptions) (p : Parse α) (G : List Token → α → Prop)
    (F : α → Token → Prop) : Prop where
  sound : ∀ {c a d}, c.Ended → p o c = .ok (a, d) → ∃ ts, c.Passes ts d ∧ G ts a
  complete : ∀ {c ts a t rest}, G ts a → F a t → c.Shows (ts ++ t :: rest) →
    ∃ d, p o c = .ok (a, d) ∧ d.Shows (t :: rest)

/-- The same for cursors at a known token. -/
structure ReadsAt {α : Type} (tok : Token) (o : ParseOptions) (p : Parse α)
    (G : List Token → α → Prop) (F : α → Token → Prop) : Prop where
  sound : ∀ {c a d}, c.Ended → c.current.token = tok → p o c = .ok (a, d) →
    ∃ ts, c.Passes ts d ∧ G ts a
  complete : ∀ {c ts a t rest}, c.current.token = tok → G ts a → F a t →
    c.Shows (ts ++ t :: rest) → ∃ d, p o c = .ok (a, d) ∧ d.Shows (t :: rest)

def Free {α : Type} : α → Token → Prop := fun _ _ => True

namespace Parse

variable {α β : Type} {o : ParseOptions} {c d : Cursor}

theorem bind_run (p : Parse α) (q : α → Parse β) :
    (p >>= q) o c = (p o c).bind fun r => q r.1 o r.2 := rfl

theorem pure_run (a : α) : (pure a : Parse α) o c = .ok (a, c) := rfl

theorem bind_ok {p : Parse α} {q : α → Parse β} {b : β} :
    (p >>= q) o c = .ok (b, d) ↔ ∃ a e, p o c = .ok (a, e) ∧ q a o e = .ok (b, d) := by
  rw [bind_run]
  cases p o c with
  | error f => simp [Except.bind]
  | ok r =>
    refine ⟨fun h => ⟨r.1, r.2, rfl, h⟩, ?_⟩
    rintro ⟨a, e, h, hq⟩
    cases h
    exact hq

theorem bind_error {p : Parse α} {q : α → Parse β} {f : Fault} :
    (p >>= q) o c = .error f ↔
      p o c = .error f ∨ ∃ a d, p o c = .ok (a, d) ∧ q a o d = .error f := by
  rw [bind_run]
  cases p o c with
  | error g => simp [Except.bind]
  | ok r =>
    refine ⟨fun h => .inr ⟨r.1, r.2, rfl, h⟩, ?_⟩
    rintro (h | ⟨a, d, h, hq⟩)
    · cases h
    · cases h
      exact hq

theorem pure_ok {a b : α} : (pure a : Parse α) o c = .ok (b, d) ↔ a = b ∧ c = d := by
  rw [pure_run]
  simp

theorem note_ok {x : Expected} {u : Unit} : note x o c = .ok (u, d) ↔ c.note x = d := by
  simp [note]

theorem peek_ok {l : Lexeme} : peek o c = .ok (l, d) ↔ c.current = l ∧ c = d := by
  simp [peek]

theorem fail_ok {a : α} : (fail : Parse α) o c = .ok (a, d) ↔ False := by simp [fail]

theorem throw_ok {f : Fault} {a : α} : (throw f : Parse α) o c = .ok (a, d) ↔ False :=
  ⟨nofun, False.elim⟩

theorem advance_ok {l : Lexeme} : advance o c = .ok (l, d) ↔ c.next = .ok d ∧ c.current = l := by
  rw [advance]
  cases c.next with
  | error f => simp [Except.map]
  | ok e => simp [Except.map, and_comm]

theorem isAt_ok {p : Punctuation} {b : Bool} :
    isAt p o c = .ok (b, d) ↔
      decide (c.current.token = .mark p) = b ∧ c.note (.literal (String.singleton p.char)) = d := by
  simp only [isAt, bind_ok, note_ok, peek_ok, pure_ok]
  constructor
  · rintro ⟨_, _, rfl, _, _, ⟨rfl, rfl⟩, rfl, rfl⟩
    simp
  · rintro ⟨rfl, rfl⟩
    exact ⟨(), _, rfl, _, _, ⟨rfl, rfl⟩, by simp⟩

/-- A look at the current token, which leaves the cursor where it is. -/
def Looks (r : Parse Bool) (f : Token → Bool) : Prop :=
  ∀ o c, ∃ d, r o c = .ok (f c.current.token, d) ∧ d.remaining = c.remaining

theorem looks_isAt (m : Punctuation) : Looks (isAt m) fun t => t = .mark m :=
  fun _ _ => ⟨_, isAt_ok.2 ⟨rfl, rfl⟩, Cursor.remaining_note _ _⟩

end Parse

namespace Reads

variable {α β σ : Type} {o : ParseOptions} {p : Parse α} {q : α → Parse β}
variable {G : List Token → α → Prop} {F : α → Token → Prop}
variable {H : α → List Token → β → Prop} {K : β → Token → Prop}

theorem result (a : α) : Reads o (pure a) (fun ts b => ts = [] ∧ b = a) Free where
  sound _ h := by
    obtain ⟨rfl, rfl⟩ := pure_ok.1 h
    exact ⟨[], Cursor.passes_refl _, rfl, rfl⟩
  complete h _ hc := by
    obtain ⟨rfl, rfl⟩ := h
    exact ⟨_, rfl, hc⟩

theorem bind (hp : Reads o p G F) (hq : ∀ a, Reads o (q a) (H a) K)
    (hf : ∀ {us vs a b t}, G us a → H a vs b → K b t → F a (vs.headD t)) :
    Reads o (p >>= q) (fun ts b => ∃ us vs a, ts = us ++ vs ∧ G us a ∧ H a vs b) K where
  sound hc h := by
    obtain ⟨a, d, hpa, hqa⟩ := bind_ok.1 h
    obtain ⟨us, hu, hg⟩ := hp.sound hc hpa
    obtain ⟨vs, hv, hh⟩ := (hq a).sound (hu.ended hc) hqa
    exact ⟨us ++ vs, hu.trans hv, us, vs, a, rfl, hg, hh⟩
  complete := by
    rintro c _ b t rest ⟨us, vs, a, rfl, hg, hh⟩ hk hc
    rw [List.append_assoc] at hc
    obtain ⟨xs, hx⟩ := Cursor.append_eq_headD_cons vs t rest
    rw [hx] at hc
    obtain ⟨d, hpa, hd⟩ := hp.complete hg (hf hg hh hk) hc
    rw [← hx] at hd
    obtain ⟨e, hqa, he⟩ := (hq a).complete hh hk hd
    exact ⟨e, bind_ok.2 ⟨a, d, hpa, hqa⟩, he⟩

theorem andThen (hp : Reads o p G Free) (hq : ∀ a, Reads o (q a) (H a) K) :
    Reads o (p >>= q) (fun ts b => ∃ us vs a, ts = us ++ vs ∧ G us a ∧ H a vs b) K :=
  hp.bind hq fun _ _ _ => trivial

theorem map {K : Token → Prop} (hp : Reads o p G fun _ => K) (f : α → β) :
    Reads o (p >>= fun a => pure (f a)) (fun ts b => ∃ a, G ts a ∧ b = f a) fun _ => K where
  sound hc h := by
    obtain ⟨a, d, hpa, h⟩ := bind_ok.1 h
    obtain ⟨rfl, rfl⟩ := pure_ok.1 h
    obtain ⟨ts, hts, hg⟩ := hp.sound hc hpa
    exact ⟨ts, hts, a, hg, rfl⟩
  complete := by
    rintro c ts _ t rest ⟨a, hg, rfl⟩ hk hc
    obtain ⟨d, hpa, hd⟩ := hp.complete hg hk hc
    exact ⟨d, bind_ok.2 ⟨a, d, hpa, rfl⟩, hd⟩

theorem congr {G' : List Token → α → Prop} (h : Reads o p G F) (hG : ∀ ts a, G ts a ↔ G' ts a) :
    Reads o p G' F where
  sound hc hp := by
    obtain ⟨ts, hts, hg⟩ := h.sound hc hp
    exact ⟨ts, hts, (hG ts _).1 hg⟩
  complete hg := h.complete ((hG _ _).2 hg)

theorem follow {F' : α → Token → Prop} (h : Reads o p G F)
    (hF : ∀ {ts a t}, G ts a → F' a t → F a t) : Reads o p G F' where
  sound := h.sound
  complete hg hf := h.complete hg (hF hg hf)

theorem noteThen {p : Parse β} {x : Expected} {G : List Token → β → Prop}
    (h : Reads o p G K) : Reads o (note x >>= fun _ => p) G K where
  sound hc hp := by
    obtain ⟨_, d, hd, hp⟩ := bind_ok.1 hp
    obtain rfl := note_ok.1 hd
    obtain ⟨ts, hts, hg⟩ := h.sound (by simpa using hc) hp
    exact ⟨ts, by simpa using hts, hg⟩
  complete hg hk hc := by
    obtain ⟨d, hp, hd⟩ := h.complete hg hk ((Cursor.shows_note _ x).2 hc)
    exact ⟨d, bind_ok.2 ⟨(), _, note_ok.2 rfl, hp⟩, hd⟩

theorem peekThen {q : Lexeme → Parse β} {G : List Token → β → Prop}
    (h : ∀ l, Reads o (q l) G K) : Reads o (peek >>= q) G K where
  sound hc hp := by
    obtain ⟨l, d, hl, hp⟩ := bind_ok.1 hp
    obtain ⟨rfl, rfl⟩ := peek_ok.1 hl
    exact (h _).sound hc hp
  complete hg hk hc := by
    obtain ⟨d, hp, hd⟩ := (h _).complete hg hk hc
    exact ⟨d, bind_ok.2 ⟨_, _, peek_ok.2 ⟨rfl, rfl⟩, hp⟩, hd⟩

theorem locatedThen {q : Option Location → Parse β} {G : List Token → β → Prop}
    (ho : o.locations = false) (l : Location) (h : Reads o (q none) G K) :
    Reads o (located l >>= q) G K where
  sound hc hp := by
    rw [bind_run, located, ho] at hp
    exact h.sound hc hp
  complete hg hk hc := by
    rw [bind_run, located, ho]
    exact h.complete hg hk hc

theorem spanThen {q : Option Location → Parse β} {G : List Token → β → Prop}
    (ho : o.locations = false) (start : Position) (h : Reads o (q none) G K) :
    Reads o (span start >>= q) G K where
  sound hc hp := by
    rw [bind_run, span, located, ho] at hp
    exact h.sound hc hp
  complete hg hk hc := by
    rw [bind_run, span, located, ho]
    exact h.complete hg hk hc

theorem expectThen {q : Lexeme → Parse β} {m : Punctuation} {G : List Token → β → Prop}
    (h : ∀ l, Reads o (q l) G K) :
    Reads o (expect m >>= q) (fun ts b => ∃ us, ts = .mark m :: us ∧ G us b) K where
  sound hc hp := by
    obtain ⟨l, d, he, hq⟩ := bind_ok.1 hp
    obtain ⟨b, e, hb, he⟩ := bind_ok.1 he
    obtain ⟨rfl, rfl⟩ := isAt_ok.1 hb
    split at he
    · next ht =>
      have ht := of_decide_eq_true ht
      obtain ⟨hn, rfl⟩ := advance_ok.1 he
      have hs := Cursor.next_passes hn (by simpa using hc) (by simp [ht])
      simp only [Cursor.current_note, Cursor.passes_note, ht] at hs
      obtain ⟨us, hu, hg⟩ := (h _).sound (hs.ended hc) hq
      exact ⟨_, hs.trans hu, us, rfl, hg⟩
    · cases he
  complete := by
    rintro c _ b t rest ⟨us, rfl, hg⟩ hk hc
    obtain ⟨d, hn, hd⟩ := ((Cursor.shows_note c (.literal (String.singleton m.char))).2 hc).next
      (by simp)
    obtain ⟨e, hq, he⟩ := (h c.current).complete hg hk hd
    have hm : decide (c.current.token = .mark m) = true := decide_eq_true hc.current
    have ha := (advance_ok (o := o) (l := c.current)).2 ⟨hn, Cursor.current_note c _⟩
    exact ⟨e, bind_ok.2 ⟨_, d, bind_ok.2 ⟨true, _, isAt_ok.2 ⟨hm, rfl⟩, ha⟩, hq⟩, he⟩

/-- Two ways to read a phrase, of which the token that a look finds is told the right one. -/
theorem choice {r : Parse Bool} {f : Token → Bool} {p q : Parse β}
    {G₁ G₂ G : List Token → β → Prop} (hr : Looks r f) (hp : Reads o p G₁ K) (hq : Reads o q G₂ K)
    (h₁ : ∀ {ts b}, G₁ ts b → G ts b) (h₂ : ∀ {ts b}, G₂ ts b → G ts b)
    (hG : ∀ {ts b t}, G ts b → K b t →
      f (ts.headD t) = true ∧ G₁ ts b ∨ f (ts.headD t) = false ∧ G₂ ts b) :
    Reads o (r >>= fun b => if b then p else q) G K where
  sound {c b e} hc h := by
    obtain ⟨d, hd, hrem⟩ := hr o c
    obtain ⟨_, _, hrc, h⟩ := bind_ok.1 h
    cases hd.symm.trans hrc
    have hdc := Cursor.passes_of_remaining hrem.symm
    split at h
    · obtain ⟨ts, hts, hg⟩ := hp.sound (hdc.ended hc) h
      exact ⟨ts, hdc.trans hts, h₁ hg⟩
    · obtain ⟨ts, hts, hg⟩ := hq.sound (hdc.ended hc) h
      exact ⟨ts, hdc.trans hts, h₂ hg⟩
  complete {c ts b t rest} hg hk hc := by
    obtain ⟨d, hd, hrem⟩ := hr o c
    have hs : d.Shows (ts ++ t :: rest) := by rwa [Cursor.Shows, hrem]
    rw [hc.current_append] at hd
    rcases hG hg hk with ⟨hf, hg⟩ | ⟨hf, hg⟩
    · rw [hf] at hd
      obtain ⟨e, he, hes⟩ := hp.complete hg hk hs
      exact ⟨e, bind_ok.2 ⟨true, d, hd, he⟩, hes⟩
    · rw [hf] at hd
      obtain ⟨e, he, hes⟩ := hq.complete hg hk hs
      exact ⟨e, bind_ok.2 ⟨false, d, hd, he⟩, hes⟩

theorem at_token {G : List Token → β → Prop} {p : Parse β} (h : Reads o p G K) (tok : Token) :
    ReadsAt tok o p G K where
  sound hc _ hp := h.sound hc hp
  complete _ hg hk hc := h.complete hg hk hc

theorem advanceThen {tok : Token} {q : Lexeme → Parse β} {G : List Token → β → Prop}
    (hne : tok ≠ .endOfInput) (h : ∀ l, Reads o (q l) G K) :
    ReadsAt tok o (advance >>= q) (fun ts b => ∃ us, ts = tok :: us ∧ G us b) K where
  sound hc ht hp := by
    obtain ⟨l, d, ha, hq⟩ := bind_ok.1 hp
    obtain ⟨hn, rfl⟩ := advance_ok.1 ha
    have hs := Cursor.next_passes hn hc (ht ▸ hne)
    rw [ht] at hs
    obtain ⟨us, hus, hg⟩ := (h _).sound (hs.ended hc) hq
    exact ⟨_, hs.trans hus, us, rfl, hg⟩
  complete := by
    rintro c _ b t rest - ⟨us, rfl, hg⟩ hk hc
    obtain ⟨d, hn, hd⟩ := hc.next (by simp)
    obtain ⟨e, hq, he⟩ := (h c.current).complete hg hk hd
    exact ⟨e, bind_ok.2 ⟨_, d, advance_ok.2 ⟨hn, rfl⟩, hq⟩, he⟩

theorem peekBy {q : Lexeme → Parse β} {H : Token → List Token → β → Prop}
    {G : List Token → β → Prop} (hq : ∀ l, ReadsAt l.token o (q l) (H l.token) K)
    (hs : ∀ {tok ts b u}, ts.headD u = tok → H tok ts b → G ts b)
    (hG : ∀ {ts b t}, G ts b → K b t → H (ts.headD t) ts b) : Reads o (peek >>= q) G K where
  sound hc hp := by
    obtain ⟨l, d, hl, hp⟩ := bind_ok.1 hp
    obtain ⟨rfl, rfl⟩ := peek_ok.1 hl
    obtain ⟨ts, hts, hh⟩ := (hq _).sound hc rfl hp
    exact ⟨ts, hts, hs hts.current.symm hh⟩
  complete hg hk hc := by
    have ht := hc.current_append
    obtain ⟨d, hp, hd⟩ := (hq _).complete rfl (ht ▸ hG hg hk) hk hc
    exact ⟨d, bind_ok.2 ⟨_, _, peek_ok.2 ⟨rfl, rfl⟩, hp⟩, hd⟩

end Reads

end MailSieve
