import MailSieve.Proofs.Reading.Reads
import MailSieve.Proofs.Phrase.Clause

/-! Repetitions and the sequences of phrases that they read.
A repetition ends where its item declines, and never earlier: every other item passes over a token,
and there are as many turns as tokens. -/

namespace MailSieve

open Parse

variable {α σ : Type} {o : ParseOptions}

/-- Items up to the first last one, or until one declines. -/
inductive Repeated (isLast : α → Bool) (G : List Token → Option α → Prop) :
    List Token → List α → Prop where
  | stop {ts : List Token} : G ts none → Repeated isLast G ts []
  | last {ts : List Token} {a : α} :
    G ts (some a) → isLast a = true → Repeated isLast G ts [a]
  | more {ts us : List Token} {a : α} {as : List α} :
    G ts (some a) → isLast a = false → Repeated isLast G us as →
    Repeated isLast G (ts ++ us) (a :: as)

/-- Steps until one declines. -/
inductive Iterated (G : σ → List Token → Option σ → Prop) : σ → List Token → σ → Prop where
  | stop {ts : List Token} {s : σ} : G s ts none → Iterated G s ts s
  | more {ts us : List Token} {s s' s'' : σ} :
    G s ts (some s') → Iterated G s' us s'' → Iterated G s (ts ++ us) s''

namespace Reads

theorem collect_sound {item : Parse (Option α)} {isLast : α → Bool}
    {G : List Token → Option α → Prop} {F : Option α → Token → Prop} (hi : Reads o item G F)
    (hne : ∀ {ts a}, G ts (some a) → ts ≠ []) (turns : List Reading) {c d : Cursor} {as : List α}
    (hn : c.remaining.length ≤ turns.length) (hc : c.Ended)
    (h : collect isLast item turns o c = .ok (as, d)) :
    ∃ ts, c.Passes ts d ∧ Repeated isLast G ts as := by
  induction turns generalizing c as with
  | nil => simp [Cursor.remaining] at hn
  | cons _ turns ih =>
    obtain ⟨r, e, hr, h⟩ := bind_ok.1 h
    obtain ⟨ts, hts, hg⟩ := hi.sound hc hr
    cases r with
    | none =>
      obtain ⟨rfl, rfl⟩ := pure_ok.1 h
      exact ⟨ts, hts, .stop hg⟩
    | some a =>
      dsimp only at h
      split at h
      · next hl =>
        obtain ⟨rfl, rfl⟩ := pure_ok.1 h
        exact ⟨ts, hts, .last hg hl⟩
      · next hl =>
        obtain ⟨bs, f, hbs, h⟩ := bind_ok.1 h
        obtain ⟨rfl, rfl⟩ := pure_ok.1 h
        obtain ⟨us, hus, hrep⟩ := ih (hts.shorter (hne hg) hn) (hts.ended hc) hbs
        exact ⟨ts ++ us, hts.trans hus, .more hg (by simpa using hl) hrep⟩

theorem collect_complete {item : Parse (Option α)} {isLast : α → Bool}
    {G : List Token → Option α → Prop} {F : Option α → Token → Prop} {K : Token → Prop}
    (hi : Reads o item G F) (hne : ∀ {ts a}, G ts (some a) → ts ≠ [])
    (hstop : ∀ {ts t}, G ts none → K t → F none t)
    (hlast : ∀ {ts a t}, G ts (some a) → isLast a = true → K t → F (some a) t)
    (hmore : ∀ {ts us a as t}, G ts (some a) → isLast a = false → Repeated isLast G us as → K t →
      F (some a) (us.headD t))
    {ts : List Token} {as : List α} (h : Repeated isLast G ts as) (turns : List Reading)
    {c : Cursor} {t : Token} {rest : List Token} (hn : c.remaining.length ≤ turns.length)
    (hk : K t) (hc : c.Shows (ts ++ t :: rest)) :
    ∃ d, collect isLast item turns o c = .ok (as, d) ∧ d.Shows (t :: rest) := by
  induction h generalizing turns c with
  | stop hg =>
    obtain ⟨_, turns, rfl⟩ := Cursor.exists_turn hn
    obtain ⟨d, hd, hs⟩ := hi.complete hg (hstop hg hk) hc
    exact ⟨d, bind_ok.2 ⟨none, d, hd, rfl⟩, hs⟩
  | @last _ a hg hl =>
    obtain ⟨_, turns, rfl⟩ := Cursor.exists_turn hn
    obtain ⟨d, hd, hs⟩ := hi.complete hg (hlast hg hl hk) hc
    refine ⟨d, bind_ok.2 ⟨some a, d, hd, ?_⟩, hs⟩
    dsimp only
    rw [if_pos hl, pure_run]
  | @more ts us a as hg hl hrep ih =>
    obtain ⟨_, turns, rfl⟩ := Cursor.exists_turn hn
    obtain ⟨xs, hx⟩ := Cursor.append_eq_headD_cons us t rest
    rw [List.append_assoc, hx] at hc
    obtain ⟨d, hd, hs⟩ := hi.complete hg (hmore hg hl hrep hk) hc
    obtain ⟨e, he, hes⟩ := ih turns (hc.shorter hs (hne hg) hn) (hx ▸ hs)
    refine ⟨e, bind_ok.2 ⟨some a, d, hd, ?_⟩, hes⟩
    dsimp only
    rw [if_neg (by simp [hl])]
    exact bind_ok.2 ⟨as, e, he, rfl⟩

theorem manyUntil {item : Parse (Option α)} {isLast : α → Bool}
    {G : List Token → Option α → Prop} {F : Option α → Token → Prop} {K : Token → Prop}
    (hi : Reads o item G F) (hne : ∀ {ts a}, G ts (some a) → ts ≠ [])
    (hstop : ∀ {ts t}, G ts none → K t → F none t)
    (hlast : ∀ {ts a t}, G ts (some a) → isLast a = true → K t → F (some a) t)
    (hmore : ∀ {ts us a as t}, G ts (some a) → isLast a = false → Repeated isLast G us as → K t →
      F (some a) (us.headD t)) :
    Reads o (manyUntil isLast item) (Repeated isLast G) (fun _ => K) where
  sound hc h := collect_sound hi hne _ (Nat.le_refl _) hc h
  complete h hk hc := collect_complete hi hne hstop hlast hmore h _ (Nat.le_refl _) hk hc

theorem collect_declines {item : Parse (Option α)} {G : List Token → Option α → Prop}
    {F : Option α → Token → Prop} (hi : Reads o item G F)
    (hne : ∀ {ts a}, G ts (some a) → ts ≠ []) (turns : List Reading) {c d : Cursor} {as : List α}
    (hn : c.remaining.length ≤ turns.length) (hc : c.Ended)
    (h : collect (fun _ => false) item turns o c = .ok (as, d)) :
    ∃ e, item o e = .ok (none, d) := by
  induction turns generalizing c as with
  | nil => simp [Cursor.remaining] at hn
  | cons _ turns ih =>
    obtain ⟨r, e, hr, h⟩ := bind_ok.1 h
    cases r with
    | none =>
      obtain ⟨rfl, rfl⟩ := pure_ok.1 h
      exact ⟨c, hr⟩
    | some a =>
      obtain ⟨ts, hts, hg⟩ := hi.sound hc hr
      obtain ⟨bs, f, hbs, h⟩ := bind_ok.1 h
      obtain ⟨rfl, rfl⟩ := pure_ok.1 h
      exact ih (hts.shorter (hne hg) hn) (hts.ended hc) hbs

theorem many_declines {item : Parse (Option α)} {G : List Token → Option α → Prop}
    {F : Option α → Token → Prop} (hi : Reads o item G F)
    (hne : ∀ {ts a}, G ts (some a) → ts ≠ []) {c d : Cursor} {as : List α} (hc : c.Ended)
    (h : many item o c = .ok (as, d)) : ∃ e, item o e = .ok (none, d) :=
  collect_declines hi hne _ (Nat.le_refl _) hc h

section Iterate

variable {step : σ → Parse (Option σ)} {G : σ → List Token → Option σ → Prop} {K : Token → Prop}

theorem loop_sound (hi : ∀ s, Reads o (step s) (G s) fun r t => r = none → K t)
    (hne : ∀ {s ts s'}, G s ts (some s') → ts ≠ []) (turns : List Reading) {s s' : σ}
    {c d : Cursor} (hn : c.remaining.length ≤ turns.length) (hc : c.Ended)
    (h : loop step turns s o c = .ok (s', d)) : ∃ ts, c.Passes ts d ∧ Iterated G s ts s' := by
  induction turns generalizing s c with
  | nil => simp [Cursor.remaining] at hn
  | cons _ turns ih =>
    obtain ⟨r, e, hr, h⟩ := bind_ok.1 h
    obtain ⟨ts, hts, hg⟩ := (hi s).sound hc hr
    cases r with
    | none =>
      obtain ⟨rfl, rfl⟩ := pure_ok.1 h
      exact ⟨ts, hts, .stop hg⟩
    | some s₁ =>
      obtain ⟨us, hus, hit⟩ := ih (hts.shorter (hne hg) hn) (hts.ended hc) h
      exact ⟨ts ++ us, hts.trans hus, .more hg hit⟩

theorem loop_complete (hi : ∀ s, Reads o (step s) (G s) fun r t => r = none → K t)
    (hne : ∀ {s ts s'}, G s ts (some s') → ts ≠ []) {s s' : σ} {ts : List Token}
    (h : Iterated G s ts s') (turns : List Reading) {c : Cursor} {t : Token} {rest : List Token}
    (hn : c.remaining.length ≤ turns.length) (hk : K t) (hc : c.Shows (ts ++ t :: rest)) :
    ∃ d, loop step turns s o c = .ok (s', d) ∧ d.Shows (t :: rest) := by
  induction h generalizing turns c with
  | stop hg =>
    obtain ⟨_, turns, rfl⟩ := Cursor.exists_turn hn
    obtain ⟨d, hd, hs⟩ := (hi _).complete hg (fun _ => hk) hc
    exact ⟨d, bind_ok.2 ⟨none, d, hd, rfl⟩, hs⟩
  | @more ts us s s₁ s₂ hg hit ih =>
    obtain ⟨_, turns, rfl⟩ := Cursor.exists_turn hn
    obtain ⟨xs, hx⟩ := Cursor.append_eq_headD_cons us t rest
    rw [List.append_assoc, hx] at hc
    have hmore : some s₁ = none → K (us.headD t) := fun he => absurd he (Option.some_ne_none s₁)
    obtain ⟨d, hd, hs⟩ := (hi s).complete hg hmore hc
    obtain ⟨e, he, hes⟩ := ih turns (hc.shorter hs (hne hg) hn) (hx ▸ hs)
    exact ⟨e, bind_ok.2 ⟨some s₁, d, hd, he⟩, hes⟩

theorem iterate (hi : ∀ s, Reads o (step s) (G s) fun r t => r = none → K t)
    (hne : ∀ {s ts s'}, G s ts (some s') → ts ≠ []) (s : σ) :
    Reads o (iterate step s) (Iterated G s) (fun _ => K) where
  sound hc h := loop_sound hi hne _ (Nat.le_refl _) hc h
  complete h hk hc := loop_complete hi hne h _ (Nat.le_refl _) hk hc

end Iterate

end Reads

end MailSieve
