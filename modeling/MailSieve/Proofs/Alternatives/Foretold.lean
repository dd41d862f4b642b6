import MailSieve.Proofs.Alternatives.Approach

/-! Parsers whose outcome is foretold.
From every approach that is near enough the parser has an outcome, whatever the open token is. The
lemmas here follow the combinators of `Parse`. Parsers come in families: what follows a token knows
its place, but the outcome does not depend on places. -/

namespace MailSieve

open Parse Expected

/-- One outcome for a whole family of parsers, whose members know tokens by their places. -/
def Foretold {ι α : Type} (o : ParseOptions) (R : α → List Expected → Prop) (M : α → Prop)
    (p : ι → Parse α) (A : Approach) : Prop :=
  ∃ w : Outcome α, w.Fits A R M ∧ ∀ i, w.Of o (p i) A

/-- The outcome is foretold from every approach of less than `n` tokens on which `I` holds. -/
def Foretells {ι α : Type} (o : ParseOptions) (n : Nat) (I : List Expected → Prop)
    (R : α → List Expected → Prop) (M : α → Prop) (p : ι → Parse α) : Prop :=
  ∀ A : Approach, A.before.length < n → A.Holds I → Foretold o R M p A

/-- The parsers pass over the token `t` first. -/
structure Takes {ι α : Type} (o : ParseOptions) (n : Nat) (R : α → List Expected → Prop) (t : Token)
    (p : ι → Parse α) : Prop where
  halts : 0 < n → ∀ i, HaltsAt o t (p i)
  leads : ∀ {A ts}, A.before = t :: ts → A.before.length < n → Foretold o R Always p A

namespace Foretold

variable {ι α β : Type} {o : ParseOptions} {A : Approach} {p : ι → Parse α}
variable {R R' : α → List Expected → Prop} {S : β → List Expected → Prop}
variable {M M' : α → Prop} {N : β → Prop}

theorem reindex {κ : Type} (h : Foretold o R M p A) (f : κ → ι) :
    Foretold o R M (fun k => p (f k)) A := by
  obtain ⟨w, hw, hof⟩ := h
  exact ⟨w, hw, fun k => hof (f k)⟩

theorem leave (h : Foretold o R M p A) (hR : ∀ a es, R a es → R' a es) :
    Foretold o R' M p A := by
  obtain ⟨w, hw, hof⟩ := h
  exact ⟨w, { hw with result := fun ha => (hw.result ha).mono (hR _) }, hof⟩

theorem relax (h : Foretold o R M p A) (hM : ∀ a, M' a → M a) : Foretold o R M' p A := by
  obtain ⟨w, hw, hof⟩ := h
  exact ⟨w, { hw with moves := fun ha hm => hw.moves ha (hM _ hm) }, hof⟩

theorem bind {q : ι → α → Parse β} (hp : Foretold o R M p A)
    (hq : ∀ a B, A.Leads B → (M a → B.before.length < A.before.length) → B.Holds (R a) →
      Foretold o S (fun b => ¬ M a ∧ N b) (fun i => q i a) B) :
    Foretold o S N (fun i => p i >>= q i) A := by
  obtain ⟨⟨B, r⟩, hw, hof⟩ := hp
  cases r with
  | error r =>
    exact ⟨⟨B, .error r⟩, ⟨hw.leads, nofun, nofun, fun h => hw.missing (by cases h; rfl)⟩,
      fun i => (hof i).stuck⟩
  | ok a =>
    obtain ⟨w, hw', hof'⟩ := hq a B hw.leads (hw.moves rfl) (hw.result rfl)
    refine ⟨w, ⟨hw.leads.trans hw'.leads, hw'.result, fun hb hN => ?_, hw'.missing⟩,
      fun i => (hof i).then (hof' i) hw'.leads⟩
    by_cases ha : M a
    · exact Nat.lt_of_le_of_lt hw'.leads.length_le (hw.moves rfl ha)
    · exact Nat.lt_of_lt_of_le (hw'.moves hb ⟨ha, hN⟩) hw.leads.length_le

end Foretold

namespace Foretells

variable {ι α β : Type} {o : ParseOptions} {n : Nat} {I I' : List Expected → Prop}
variable {R R' : α → List Expected → Prop} {S : β → List Expected → Prop}
variable {M M' : α → Prop} {N : β → Prop} {p : ι → Parse α}

theorem reindex {κ : Type} (h : Foretells o n I R M p) (f : κ → ι) :
    Foretells o n I R M fun i => p (f i) := fun A hn hA => (h A hn hA).reindex f

theorem zero : Foretells o 0 I R M p := fun _ hn => absurd hn (Nat.not_lt_zero _)

theorem enter (h : Foretells o n I R M p) (hI : ∀ es, I' es → I es) :
    Foretells o n I' R M p := fun A hn hA => h A hn (hA.mono hI)

theorem leave (h : Foretells o n I R M p) (hR : ∀ a es, R a es → R' a es) :
    Foretells o n I R' M p := fun A hn hA => (h A hn hA).leave hR

theorem relax (h : Foretells o n I R M p) (hM : ∀ a, M' a → M a) : Foretells o n I R M' p :=
  fun A hn hA => (h A hn hA).relax hM

theorem bind {q : ι → α → Parse β} (hp : Foretells o n I R M p)
    (hq : ∀ a, Foretells o n (R a) S (fun b => ¬ M a ∧ N b) fun i => q i a) :
    Foretells o n I S N fun i => p i >>= q i := fun A hn hA =>
  (hp A hn hA).bind fun a B hB _ => hq a B (Nat.lt_of_le_of_lt hB.length_le hn)

theorem andThen {q : ι → α → Parse β} (hp : Foretells o n I R M p)
    (hq : ∀ a, Foretells o n (R a) S N fun i => q i a) :
    Foretells o n I S N fun i => p i >>= q i :=
  hp.bind fun a => (hq a).relax fun _ => And.right

theorem moved {q : ι → α → Parse β} (hp : Foretells o n I R Always p)
    (hq : ∀ a, Foretells o n (R a) S Never fun i => q i a) :
    Foretells o n I S N fun i => p i >>= q i :=
  hp.bind fun a => (hq a).relax fun _ h => h.1 trivial

theorem ite {c : Prop} [Decidable c] {q : ι → Parse α} (h : Foretells o n I R M p)
    (h' : Foretells o n I R M q) : Foretells o n I R M fun i => if c then p i else q i := by
  by_cases hc : c
  · simpa only [if_pos hc] using h
  · simpa only [if_neg hc] using h'

theorem still {a : α} (hp : ∀ i c, p i o c = .ok (a, c)) (hR : ∀ es, I es → R a es)
    (hM : ¬ M a) : Foretells o n I R M p := by
  intro A _ hA
  refine ⟨⟨A, .ok a⟩, ⟨.refl, fun h => ?_, fun h hm => ?_, nofun⟩, fun i => ⟨fun hc _ => ?_, ?_⟩⟩
  · cases h
    exact hA.mono hR
  · cases h
    exact (hM hm).elim
  · exact ⟨_, hp i _, hc⟩
  · exact fun h h' => (h' h).elim

theorem result {a : α} (hR : ∀ es, I es → R a es) (hM : ¬ M a) :
    Foretells o n I R M fun _ : ι => Pure.pure a :=
  still (fun _ _ => rfl) hR hM

theorem pure {a : α} : Foretells o n I (fun _ => I) Never fun _ : ι => Pure.pure a :=
  result (fun _ h => h) not_false

theorem span (hl : o.locations = false) {start : ι → Position} :
    Foretells o n I (fun _ => I) Never fun i => Parse.span (start i) :=
  still (a := none) (fun i c => by rw [Parse.span, Parse.located, hl]; rfl) (fun _ h => h) not_false

theorem located (hl : o.locations = false) {l : ι → Location} :
    Foretells o n I (fun _ => I) Never fun i => Parse.located (l i) :=
  still (a := none) (fun i c => by rw [Parse.located, hl]; rfl) (fun _ h => h) not_false

theorem peekThen {q : ι → Lexeme → Parse α}
    (h : Foretells o n I R M fun i : ι × Lexeme => q i.1 i.2) :
    Foretells o n I R M fun i => Parse.peek >>= q i := by
  intro A hn hA
  obtain ⟨w, hw, hof⟩ := h A hn hA
  exact ⟨w, hw, fun i => ⟨fun {l tail c} => (hof ⟨i, c.current⟩).run,
    fun {l} hAl hl m more c => (hof ⟨i, c.current⟩).halts hAl hl⟩⟩

theorem refuse {f : ι → Fault} (hf : ∀ i location found es, f i ≠ .unexpected location found es) :
    Foretells o n I R M fun i => (throw (f i) : Parse α) := by
  intro A _ _
  refine ⟨⟨A, .error .other⟩, ⟨.refl, nofun, nofun, nofun⟩, fun i => ⟨fun _ _ => ?_, ?_⟩⟩
  · exact ⟨f i, rfl, hf i _⟩
  · exact fun h h' => (h' h).elim

theorem fail : Foretells o n Rounded R M fun _ : ι => (Parse.fail : Parse α) := by
  intro A _ hA
  have hof (r : Refusal) (h : A.before = [] ↔ r = .missing) :
      Outcome.Of o (Parse.fail : Parse α) A ⟨A, .error r⟩ := {
    run {l tail c} hc _ := by
      cases r with
      | missing =>
        obtain ⟨rfl, -⟩ := hc.here (h.2 rfl)
        exact congrArg (fun es => Except.error (c.current.missing es)) hc.noted
      | other =>
        obtain ⟨t, ts, hts⟩ := List.exists_cons_of_ne_nil fun hA => nomatch h.1 hA
        obtain ⟨-, hne, -⟩ := hc.next hts
        exact ⟨_, rfl, fun found es hf => hne (by injection hf)⟩
    halts h h' := (h' h).elim }
  cases hb : A.before with
  | nil =>
    exact ⟨⟨A, .error .missing⟩, ⟨.refl, nofun, nofun, fun _ => ⟨hb, hA hb⟩⟩,
      fun _ => hof _ (by simp [hb])⟩
  | cons t ts =>
    exact ⟨⟨A, .error .other⟩, ⟨.refl, nofun, nofun, nofun⟩, fun _ => hof _ (by simp [hb])⟩

theorem noteKnown {e : Expected} {J : List Expected → Prop} (hend : endOfInput ∉ [e])
    (hI : ∀ es, I es → J (noteAll es [e])) (he : ∀ es t, I es → e.Covers t → Allowed es t)
    (hp : Foretells o n J R M p) : Foretells o n I R M fun i => Parse.note e >>= fun _ => p i := by
  intro A hn hA
  obtain ⟨w, hw, hof⟩ := hp (A.noteAll [e]) hn fun hb => hI _ (hA hb)
  refine ⟨w, ⟨(Approach.leads_noteAll hend).trans hw.leads, hw.result, hw.moves, hw.missing⟩,
    fun i => ⟨fun hc hl => (hof i).run hc.noteAll hl, fun {l} hAl hl m more c hc => ?_⟩⟩
  refine (hof i).halts (Approach.open_noteAll.2 ⟨hAl, fun hb h => hAl hb ?_⟩) hl hc.noteAll
  exact he _ _ (hA hb) (by simpa using h)

/-- A parser that passes over the tokens that `es` stands for, and does what `r` does at others. -/
theorem choose {J : List Expected → Prop} (es : List Expected) (hend : endOfInput ∉ es)
    {r : ι → Parse α}
    (hno : ∀ i c, ¬ Allowed es c.current.token → p i o c = r i o (c.noteAll es))
    (hI : ∀ fs, I fs → J (noteAll fs es)) (hr : Foretells o n J R M r)
    (hyes : ∀ t, Allowed es t → Takes o n R t p) : Foretells o n I R M p := by
  intro A hn hA
  -- The next token may be known to be one of these; else the open one could be, if it is next.
  by_cases h : ∃ t ts, A.before = t :: ts ∧ Allowed es t
  · obtain ⟨t, ts, hb, ht⟩ := h
    exact ((hyes t ht).leads hb hn).relax fun _ _ => trivial
  · obtain ⟨w, hw, hof⟩ := hr (A.noteAll es) hn fun hb => hI _ (hA hb)
    have hpr {i l tail c} (hc : A.Meets l tail c) (hl : (A.noteAll es).Open l) :
        p i o c = r i o (c.noteAll es) := by
      refine hno i c fun ha => ?_
      cases hb : A.before with
      | nil => exact (Approach.open_noteAll.1 hl).2 hb ((hc.here hb).1 ▸ ha)
      | cons t ts => exact h ⟨t, ts, hb, (hc.next hb).1 ▸ ha⟩
    refine ⟨w, ⟨(Approach.leads_noteAll hend).trans hw.leads, hw.result, hw.moves, hw.missing⟩,
      fun i => ⟨fun hc hl => ?_, fun {l} hAl hl m more c hc => ?_⟩⟩
    · rw [hpr hc (hw.leads.open hl)]
      exact (hof i).run hc.noteAll hl
    · by_cases hes : (A.noteAll es).Open l
      · rw [hpr hc hes]
        exact (hof i).halts hes hl hc.noteAll
      · obtain ⟨hb, ha⟩ : A.before = [] ∧ Allowed es l.token := by
          rw [Approach.open_noteAll] at hes
          simpa using fun h => hes ⟨hAl, h⟩
        obtain ⟨rfl, hahead⟩ := hc.here hb
        exact (hyes _ ha).halts (Nat.zero_lt_of_lt hn) i c m more rfl hahead

end Foretells

namespace Takes

variable {ι α β : Type} {o : ParseOptions} {n k : Nat} {R : α → List Expected → Prop} {t : Token}
variable {S : β → List Expected → Prop} {p q : ι → Parse α}

theorem bind {q : ι → α → Parse β} (hp : Takes o n R t p)
    (hq : ∀ a, Foretells o n (R a) S Never fun i => q i a) :
    Takes o n S t fun i => p i >>= q i where
  halts hn i := (hp.halts hn i).bind
  leads hA hn := (hp.leads hA hn).bind fun a B hB _ hR =>
    (hq a B (Nat.lt_of_le_of_lt hB.length_le hn) hR).relax fun _ h => h.1 trivial

theorem of_foretells {I : List Expected → Prop} (h : Foretells o n I R Always p)
    (ht : 0 < n → ∀ i, HaltsAt o t (p i)) : Takes o n R t p where
  halts := ht
  leads {A ts} hA hn := h A hn fun hb => by rw [hA] at hb; cases hb

theorem of_run (es : List Expected) (hq : Takes o n R t q)
    (h : ∀ i c, c.current.token = t → p i o c = q i o (c.noteAll es)) : Takes o n R t p where
  halts hn i c m more hc hm := by
    rw [h i c hc]
    exact hq.halts hn i _ m more ((congrArg _ Cursor.current_noteAll).trans hc)
      (Cursor.ahead_noteAll.trans hm)
  leads {A ts} hA hn := by
    obtain ⟨w, hw, hof⟩ := hq.leads (A := A.noteAll es) hA hn
    have hne : A.before ≠ [] := by simp [hA]
    refine ⟨w, ⟨hw.leads.of_noteAll hne, hw.result, hw.moves, hw.missing⟩,
      fun i => ⟨fun hc hl => ?_, fun _ hl m more c hc => ?_⟩⟩
    · rw [h i _ (hc.next hA).1]
      exact (hof i).run hc.noteAll hl
    · rw [h i c (hc.next hA).1]
      exact (hof i).halts (fun h => absurd h hne) hl hc.noteAll

theorem advance {I : List Expected → Prop} {q : ι → Lexeme → Parse α} (hI : I []) (hk : n ≤ k + 1)
    (h : Foretells o k I R Never fun i : ι × {l : Lexeme // l.token = t} => q i.1 i.2) :
    Takes o n R t fun i => Parse.advance >>= q i where
  halts _ _ := HaltsAt.advance.bind
  leads {A ts} hA hn := by
    rw [hA, List.length_cons] at hn
    obtain ⟨w, hw, hof⟩ := h ⟨ts, []⟩ (Nat.lt_of_succ_lt_succ (Nat.lt_of_lt_of_le hn hk))
      fun _ => hI
    have hlt : w.upTo.before.length < A.before.length := by
      rw [hA]
      exact Nat.lt_succ_of_le hw.leads.length_le
    have hne : A.before ≠ [] := by simp [hA]
    have hrun {i l tail c} (hc : A.Meets l tail c) : ∃ d, (Approach.mk ts []).Meets l tail d
        ∧ (Parse.advance >>= q i) o c = q i c.current o d := by
      obtain ⟨-, -, d, hd, hmeets⟩ := hc.next hA
      exact ⟨d, hmeets, by rw [bind_run, advance_ok.2 ⟨hd, rfl⟩]; rfl⟩
    have hleads : A.Leads w.upTo := {
      before := hw.leads.before.trans (hA ▸ List.suffix_cons t ts)
      noted := fun h => absurd h hne
      ends := fun h he => absurd (hw.leads.ends h he).2 List.not_mem_nil }
    refine ⟨w, ⟨hleads, hw.result, fun _ _ => hlt, hw.missing⟩,
      fun i => ⟨fun {l tail c} hc hl => ?_, fun {l} _ hl m more c hc => ?_⟩⟩
    · obtain ⟨d, hmeets, hq⟩ := hrun (i := i) hc
      change w.Is l tail ((Parse.advance >>= q i) o c)
      rw [hq]
      exact (hof ⟨i, c.current, (hc.next hA).1⟩).run hmeets hl
    · obtain ⟨d, hmeets, hq⟩ := hrun (i := i) hc
      change (Parse.advance >>= q i) o c = _
      rw [hq]
      exact (hof ⟨i, c.current, (hc.next hA).1⟩).halts (fun _ => allowed_nil) hl hmeets

theorem reindex {κ : Type} (h : Takes o n R t p) (f : κ → ι) :
    Takes o n R t fun i => p (f i) where
  halts hn i := h.halts hn (f i)
  leads hA hn := (h.leads hA hn).reindex f

theorem peek {q : ι → Lexeme → Parse α} {r : ι × {l : Lexeme // l.token = t} → Parse α}
    (hr : Takes o n R t r)
    (h : ∀ i location text, q i ⟨t, location, text⟩ = r ⟨i, ⟨t, location, text⟩, rfl⟩) :
    Takes o n R t fun i => Parse.peek >>= q i := by
  have hq (i : ι) (l : Lexeme) (hl : l.token = t) : q i l = r ⟨i, l, hl⟩ := by
    subst hl
    exact h i _ _
  refine ⟨fun hn i c m more hc hm => ?_, fun {A ts} hA hn => ?_⟩
  · change q i c.current o c = _
    rw [hq i _ hc]
    exact hr.halts hn _ c m more hc hm
  · obtain ⟨w, hw, hof⟩ := hr.leads hA hn
    refine ⟨w, hw, fun i => ⟨fun {l tail c} hc hl => ?_, fun {l} hAl hl m more c hc => ?_⟩⟩
    · change w.Is l tail (q i c.current o c)
      rw [hq i _ (hc.next hA).1]
      exact (hof _).run hc hl
    · change q i c.current o c = _
      rw [hq i _ (hc.next hA).1]
      exact (hof _).halts hAl hl hc

theorem noting (es : List Expected) (h : Takes o n R t p) :
    Takes o n R t fun i => Parse.noting es (p i) :=
  h.of_run es fun _ _ _ => noting_run es _

end Takes

namespace Foretells

variable {ι α : Type} {o : ParseOptions} {n k : Nat} {I : List Expected → Prop}

section Loop

variable {R : List Expected → Prop} {step : ι → α → Parse (Option α)}

def Repeats (I R : List Expected → Prop) (r : Option α) (es : List Expected) : Prop :=
  match r with
  | none => R es
  | some _ => I es

/-- Each turn but the last passes over a token, so the turns do not run out before it is reached. -/
theorem loop (h : ∀ a, Foretells o n I (Repeats I R) (·.isSome = true) fun i => step i a)
    {A : Approach} (hn : A.before.length < n) (hA : A.Holds I) (a : α) :
    Foretold o (fun _ => R) Never (fun i : ι × {ts : List Reading // A.before.length < ts.length} =>
      Parse.loop (step i.1) i.2 a) A := by
  induction hk : A.before.length using Nat.strongRecOn generalizing A a with
  | ind k ih =>
    subst hk
    let rest (i : ι × {ts : List Reading // A.before.length < ts.length}) (r : Option α) :=
      match r with
      | none => Pure.pure a
      | some b => Parse.loop (step i.1) i.2.1.tail b
    have hloop : (fun i : ι × {ts : List Reading // A.before.length < ts.length} =>
        Parse.loop (step i.1) i.2 a) = fun i => step i.1 a >>= rest i := by
      funext ⟨i, ts, hts⟩
      cases ts with
      | nil => cases hts
      | cons t ts =>
        refine congrArg (step i a >>= ·) (funext fun r => ?_)
        cases r <;> rfl
    rw [hloop]
    refine ((h a A hn hA).reindex Prod.fst).bind fun r B hB hlt hR => ?_
    cases r with
    | none =>
      exact (pure B (Nat.lt_of_le_of_lt hB.length_le hn) hR).relax fun _ => And.right
    | some b =>
      have hlt := hlt rfl
      have hmore (i : ι × {ts : List Reading // A.before.length < ts.length}) :
          B.before.length < i.2.1.tail.length := by
        have hts := i.2.2
        rw [List.length_tail]
        omega
      exact ((ih _ hlt (Nat.lt_trans hlt hn) hR b rfl).reindex fun i =>
        ⟨i.1, i.2.1.tail, hmore i⟩).relax fun _ => And.right

theorem iterate (h : ∀ a, Foretells o n I (Repeats I R) (·.isSome = true) fun i => step i a)
    (a : α) : Foretells o n I (fun _ => R) Never fun i => Parse.iterate (step i) a := by
  intro A hn hA
  obtain ⟨w, hw, hof⟩ := loop h hn hA a
  refine ⟨w, hw, fun i => ⟨fun {l tail c} hc hl => ?_, fun {l} hAl hl m more c hc => ?_⟩⟩
  · exact (hof ⟨i, c.remaining, hc.length_lt⟩).run hc hl
  · exact (hof ⟨i, c.remaining, hc.length_lt⟩).halts hAl hl hc

end Loop

section Collect

variable {isLast : α → Bool} {item : ι → Parse (Option α)}

theorem collect (h : Foretells o n I (fun _ => I) (·.isSome = true) item) {A : Approach}
    (hn : A.before.length < n) (hA : A.Holds I) :
    Foretold o (fun _ => I) Never (fun i : ι × {ts : List Reading // A.before.length < ts.length} =>
      Parse.collect isLast (item i.1) i.2) A := by
  induction hk : A.before.length using Nat.strongRecOn generalizing A with
  | ind k ih =>
    subst hk
    let rest (i : ι × {ts : List Reading // A.before.length < ts.length}) (r : Option α) :
        Parse (List α) :=
      match r with
      | none => Pure.pure []
      | some a => if isLast a then Pure.pure [a] else do
        let as ← Parse.collect isLast (item i.1) i.2.1.tail
        Pure.pure (a :: as)
    have hcollect : (fun i : ι × {ts : List Reading // A.before.length < ts.length} =>
        Parse.collect isLast (item i.1) i.2) = fun i => item i.1 >>= rest i := by
      funext ⟨i, ts, hts⟩
      cases ts with
      | nil => cases hts
      | cons t ts =>
        refine congrArg (item i >>= ·) (funext fun r => ?_)
        cases r <;> rfl
    rw [hcollect]
    refine ((h A hn hA).reindex Prod.fst).bind fun r B hB hlt hR => ?_
    have hBn := Nat.lt_of_le_of_lt hB.length_le hn
    refine Foretold.relax (M := Never) ?_ fun _ => And.right
    cases r with
    | none => exact pure B hBn hR
    | some a =>
      have hlt := hlt rfl
      have hmore (i : ι × {ts : List Reading // A.before.length < ts.length}) :
          B.before.length < i.2.1.tail.length := by
        have hts := i.2.2
        rw [List.length_tail]
        omega
      have has := (ih _ hlt hBn hR rfl).reindex fun i => ⟨i.1, i.2.1.tail, hmore i⟩
      by_cases ha : isLast a = true
      · simp only [rest, if_pos ha]
        exact pure B hBn hR
      · simp only [rest, if_neg ha]
        exact has.bind fun as C hC _ hR =>
          (pure C (Nat.lt_of_le_of_lt hC.length_le hBn) hR).relax fun _ => And.right

theorem manyUntil (h : Foretells o n I (fun _ => I) (·.isSome = true) item) :
    Foretells o n I (fun _ => I) Never fun i => Parse.manyUntil isLast (item i) := by
  intro A hn hA
  obtain ⟨w, hw, hof⟩ := collect h hn hA
  refine ⟨w, hw, fun i => ⟨fun {l tail c} hc hl => ?_, fun {l} hAl hl m more c hc => ?_⟩⟩
  · exact (hof ⟨i, c.remaining, hc.length_lt⟩).run hc hl
  · exact (hof ⟨i, c.remaining, hc.length_lt⟩).halts hAl hl hc

theorem some {p : ι → Parse α} {R : α → List Expected → Prop} {S : List Expected → Prop}
    (h : Foretells o n I R Always p) (hR : ∀ a es, R a es → S es) :
    Foretells o n I (fun _ => S) (·.isSome = true) fun i => p i >>= fun a =>
      Pure.pure (Option.some a) :=
  h.moved fun a => pure.leave fun _ => hR a

end Collect

theorem lookThen {I J : List Expected → Prop} {R : α → List Expected → Prop} {M : α → Prop}
    (es : List Expected) (hend : endOfInput ∉ es) {q : ι → Lexeme → Parse α} {r : ι → Parse α}
    (hI : ∀ fs, I fs → J (noteAll fs es)) (hno : ∀ i l, ¬ Allowed es l.token → q i l = r i)
    (hr : Foretells o n J R M r)
    (hyes : ∀ t, Allowed es t → Takes o n R t fun i => noting es (Parse.peek >>= q i)) :
    Foretells o n I R M fun i => noting es (Parse.peek >>= q i) := by
  refine choose es hend (fun i c hc => ?_) hI hr hyes
  rw [look_run, hno i c.current hc]

section Marks

variable {m : Punctuation} {R : α → List Expected → Prop} {M : α → Prop}

theorem isAtThen {q : ι → Bool → Parse α} (hI : Stable I)
    (hno : Foretells o n I R M fun i => q i false)
    (hyes : Takes o n R (.mark m) fun i => q i true) :
    Foretells o n I R M fun i => Parse.isAt m >>= q i := by
  have hcovers {t : Token} : Allowed [literal (String.singleton m.char)] t ↔ t = .mark m := by
    simp [mark_covers]
  refine choose _ (endOfInput_not_mem_literal _) (fun i c hc => ?_)
    (fun es h => hI.noteAll h (by simpa using plain_mark m)) hno fun t ht => ?_
  · rw [hcovers] at hc
    rw [bind_run, isAt_run, decide_eq_false hc]
    rfl
  · rw [hcovers.1 ht]
    refine hyes.of_run [literal (String.singleton m.char)] fun i c hc => ?_
    rw [bind_run, isAt_run, decide_eq_true hc]
    rfl

theorem eat (hI : Stable I) :
    Foretells o n I (fun _ => I) (· = true) fun _ : ι => Parse.eat m :=
  isAtThen hI (result (fun _ h => h) Bool.false_ne_true) (.advance hI.nil (Nat.le_succ n) pure)

theorem expectThen {q : ι → Lexeme → Parse α} (hk : n ≤ k + 1)
    (h : Foretells o k Rounded R Never
      fun i : ι × {l : Lexeme // l.token = .mark m} => q i.1 i.2) :
    Foretells o n Rounded R M fun i => Parse.expect m >>= q i := by
  have hexpect (i : ι) : Parse.expect m >>= q i = Parse.isAt m >>= fun b =>
      if b then Parse.advance >>= q i else Parse.fail := by
    funext o c
    rw [Parse.expect, bind_run, bind_run, bind_run, isAt_run]
    cases decide (c.current.token = .mark m) <;> rfl
  simp only [hexpect]
  exact isAtThen rounded_stable fail (.advance rounded_stable.nil hk h)

theorem afterComma {p : ι → Parse α} (hI : Stable I) (h : Foretells o n I (fun _ => I) Always p) :
    Foretells o n I (fun _ => I) (·.isSome = true) fun i => Parse.afterComma (p i) :=
  (eat hI).andThen fun _ => .ite (h.some fun _ _ h => h) (result (fun _ h => h) Bool.false_ne_true)

theorem commaSeparated {p : ι → Parse α} (hI : Stable I)
    (h : Foretells o n I (fun _ => I) Always p) :
    Foretells o n I (fun _ => I) Always fun i => Parse.commaSeparated (p i) :=
  h.moved fun _ => (manyUntil (h.afterComma hI)).andThen fun _ => pure

end Marks

theorem eatWordThen {word : String} {q : ι → Bool → Parse α} {R : α → List Expected → Prop}
    {M : α → Prop} (hk : n ≤ k + 1) (hword : word = "elsif" ∨ word = "else")
    (hno : Foretells o n Loose R M fun i => q i false)
    (hyes : Foretells o k Rounded R Never
      fun i : ι × {l : Lexeme // l.token = .word word} => q i.1 true) :
    Foretells o n Loose R M fun i => Parse.eatWord word >>= q i := by
  have hrun (i : ι) : Parse.eatWord word >>= q i = Parse.note (literal word) >>= fun _ =>
      Parse.peek >>= fun l => if l.token = .word word then Parse.advance >>= fun _ => q i true
        else q i false := by
    rw [Parse.eatWord]
    simp only [bind_assoc]
    refine congrArg (Parse.note _ >>= ·) (funext fun _ => congrArg (Parse.peek >>= ·) ?_)
    funext l
    split <;> simp
  have hcovers {t : Token} : Allowed [literal word] t ↔ t = .word word := by
    simp [chainWord_covers hword]
  simp only [hrun]
  have hloose : Loose [literal word] := {
    means := by simpa using chainWord_means hword
    kind := fun t ht => .inr (by rw [hcovers.1 ht]; rfl) }
  refine lookThen _ (endOfInput_not_mem_literal _) (r := fun i => q i false)
    (fun es h => h.noteAll hloose) (fun i l h => ?_) hno fun t ht => ?_
  · rw [hcovers] at h
    exact if_neg h
  · obtain rfl := hcovers.1 ht
    refine .noting [literal word] (.peek (r := fun i => Parse.advance >>= fun _ => q i.1 true)
      (.advance rounded_stable.nil hk (hyes.reindex fun i : (ι × _) × _ => (i.1.1, i.2)))
      fun i _ _ => if_pos rfl)

end Foretells

end MailSieve
