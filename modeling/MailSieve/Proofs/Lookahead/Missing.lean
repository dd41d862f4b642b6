import MailSieve.Proofs.Alternatives.Approach
import MailSieve.Proofs.Located.Node
import MailSieve.Proofs.Reading.Script

/-! A semicolon that is missing.
One cursor has the semicolon of a command ahead, and another has the same tokens without it. As long
as a parser has not come to the semicolon it does the same from both. So a fault that is met where
the semicolon is missing is met by every parser that would have passed over it. The lemmas here
follow the combinators of `Parse`. -/

namespace MailSieve

open Parse

namespace Cursor

/-- Nothing but tokens is left, up to the end of the input. -/
structure Whole (c : Cursor) : Prop where
  ended : c.Ended
  tokens : ∃ ls : List Lexeme, c.remaining = ls.map .ok

variable {c d : Cursor} {rest tail : List Reading}

theorem Whole.of_reaches (hc : c.Whole) (h : MailSieve.Reaches c.remaining d.remaining) :
    d.Whole := by
  obtain ⟨ks, hks⟩ := h
  have hpasses : c.Passes (ks.map (·.token)) d := ⟨ks, hks, rfl⟩
  refine ⟨hpasses.ended hc.ended, ?_⟩
  obtain ⟨ls, hls⟩ := hc.tokens
  rw [hls] at hks
  obtain ⟨front, back, -, -, hback⟩ := List.map_eq_append_iff.1 hks
  exact ⟨back, hback.symm⟩

theorem Whole.ahead_ne_nil (hc : c.Whole) (h : c.current.token ≠ .endOfInput) : c.ahead ≠ [] := by
  intro hnil
  obtain ⟨l, hl, hend⟩ := hc.ended
  rw [remaining, hnil, List.getLast?_singleton] at hl
  cases hl
  exact h hend

theorem ahead_reaches (h : MailSieve.Reaches c.remaining d.remaining) :
    MailSieve.Reaches c.ahead d.ahead := by
  obtain ⟨ks, hks⟩ := h
  cases ks with
  | nil =>
    obtain ⟨-, hahead⟩ := List.cons.inj hks
    exact ⟨[], hahead⟩
  | cons k ks =>
    obtain ⟨-, hahead⟩ := List.cons.inj hks
    refine ⟨ks ++ [d.current], ?_⟩
    rw [hahead, remaining, List.map_append, List.append_assoc]
    rfl

theorem Parts.unique {d' : Cursor} (h : c.Parts rest tail d) (h' : c.Parts rest tail d') :
    d = d' := by
  obtain ⟨ls, hls, rfl⟩ := h
  obtain ⟨ms, hms, rfl⟩ := h'
  rw [List.append_cancel_right (hls.symm.trans hms)]

theorem Parts.swap {rest' : List Reading} {d' : Cursor} (h : c.Parts rest tail d)
    (h' : c.Parts rest rest' d') : d.Parts tail rest' d' := by
  obtain ⟨ls, hls, rfl⟩ := h
  obtain ⟨ms, hms, rfl⟩ := h'
  exact ⟨ls, rfl, by rw [List.append_cancel_right (hls.symm.trans hms)]⟩

end Cursor

/-- What a parser does before it comes to a place, it does whatever stands there. -/
theorem Tracks.alike {α : Type} {o : ParseOptions} {M : α → Prop} {p : Parse α} {a : α}
    {c d d' : Cursor} {rest tail : List Reading} (hp : Tracks o M p) (hrest : rest ≠ [])
    (htail : tail ≠ []) (h : p o c = .ok (a, d)) (hd : d.Parts rest tail d') :
    ∃ c', c.Parts rest tail c' ∧ p o c' = .ok (a, d') := by
  obtain ⟨ks, hks, -⟩ := id hd
  obtain ⟨ls, hls⟩ : Reaches c.ahead rest :=
    (Cursor.ahead_reaches ((hp.stays c).within h)).trans ⟨ks, hks⟩
  have hc : c.Parts rest tail { c with ahead := ls.map .ok ++ tail } := ⟨ls, hls, rfl⟩
  refine ⟨_, hc, ?_⟩
  -- Both cursors are compared with a third one, where what stands there cannot be read.
  let m : Misreading := ⟨.unclosedComment, ⟨.origin, .origin⟩⟩
  let cut : Cursor := { c with ahead := ls.map .ok ++ [.error m] }
  have hwith : cut.Parts [.error m] rest c := ⟨ls, rfl, by rw [← hls]⟩
  have hwithout : cut.Parts [.error m] tail { c with ahead := ls.map .ok ++ tail } :=
    ⟨ls, rfl, rfl⟩
  have hbeside := hp.beside cut.remaining.length
  cases hcut : p o cut with
  | ok r =>
    obtain ⟨b, e⟩ := r
    obtain ⟨d₁, h₁, he₁⟩ := (hbeside _).goesOn hrest hwith (Nat.le_refl _) (Nat.le_refl _) hcut
    obtain ⟨d₂, h₂, he₂⟩ := (hbeside _).goesOn htail hwithout (Nat.le_refl _) (Nat.le_refl _) hcut
    cases h.symm.trans h₁
    rw [h₂, hd.unique (he₁.swap he₂)]
  | error f =>
    by_cases hf : ∀ x, f ≠ .lexical x
    · have h₁ := (hbeside _).fails hrest hwith (Nat.le_refl _) (Nat.le_refl _) hcut hf
      cases h.symm.trans h₁
    · obtain ⟨x, rfl⟩ : ∃ x, f = .lexical x := by simpa using hf
      have hstays := (hbeside _).halts hrest hwith (Nat.le_refl _) (Nat.le_refl _) hcut
      have hle := (hstays.within h).length_le
      simp only [Cursor.remaining, hks, List.length_cons, List.length_append] at hle
      omega

/-- Where `c` has the semicolon of `x` ahead, `c'` has none, and `f` reports that at the token
behind it. -/
def Unterminated (x : Command) (c c' : Cursor) (f : Fault) : Prop :=
  ∃ semicolon next more es, c.Parts (.ok semicolon :: .ok next :: more) (.ok next :: more) c'
    ∧ semicolon.token = .mark .semicolon
    ∧ (∃ l, x.location = some l ∧ l.stop = semicolon.location.stop)
    ∧ .literal ";" ∈ es ∧ f = next.missing es

def Node.Finishes (n : Node) (x : Command) : Prop := n.Holds (.command x) ∧ x.clause? ≠ none

/-- Without the semicolon of a command `x` such that `F a x` holds of the result `a`, `p` reports it
as missing. `H` holds of the token behind what `p` reads. -/
structure Breaks {α : Type} (o : ParseOptions) (H : Token → Prop) (F : α → Command → Prop)
    (p : Parse α) : Prop where
  run : ∀ {c a d x}, c.Whole → p o c = .ok (a, d) → H d.current.token → F a x →
    ∃ c' f, Unterminated x c c' f ∧ p o c' = .error f

/-- What stands behind a command: another one, the end of the block, or the end of the input. -/
inductive Trailing : Token → Prop where
  | word (name : String) : Trailing (.word name)
  | close : Trailing (.mark .closeBrace)
  | atEnd : Trailing .endOfInput

section Combinators

variable {α β : Type} {o : ParseOptions} {M : α → Prop} {H : Token → Prop} {p : Parse α}
  {F : α → Command → Prop} {G : β → Command → Prop} {x : Command} {c d d' : Cursor} {f : Fault}

theorem Unterminated.before (h : Unterminated x d d' f) (hp : Tracks o M p) {a : α}
    (hc : p o c = .ok (a, d)) : ∃ c', Unterminated x c c' f ∧ p o c' = .ok (a, d') := by
  obtain ⟨semicolon, next, more, es, hd, hends⟩ := h
  obtain ⟨c', hcc, hrun⟩ := hp.alike (List.cons_ne_nil _ _) (List.cons_ne_nil _ _) hc hd
  exact ⟨c', ⟨semicolon, next, more, es, hcc, hends⟩, hrun⟩

theorem Unterminated.ahead_ne_nil {c' : Cursor} (h : Unterminated x c c' f) : c'.ahead ≠ [] := by
  obtain ⟨semicolon, next, more, es, hcc, -⟩ := h
  exact hcc.ahead_ne_nil_right (List.cons_ne_nil _ _)

namespace Breaks

theorem absent (h : ∀ a x, ¬ F a x) : Breaks o H F p where
  run _ _ _ hx := absurd hx (h _ _)

theorem pure {a : α} (h : ∀ x, ¬ F a x) : Breaks o H F (Pure.pure a) where
  run _ hrun _ hx := by
    obtain ⟨rfl, rfl⟩ := pure_ok.1 hrun
    exact absurd hx (h _)

theorem fail : Breaks o H F (Parse.fail : Parse α) where
  run _ hrun := (fail_ok.1 hrun).elim

theorem throw {g : Fault} : Breaks o H F (throw g : Parse α) where
  run _ hrun := (throw_ok.1 hrun).elim

theorem bind {k : α → Parse β} (hp : Tracks o M p) (h : Breaks o (fun _ => True) F p)
    (hk : ∀ a, Breaks o H (fun b x => G b x ∧ ¬ F a x) (k a)) : Breaks o H G (p >>= k) where
  run {c b e x} hc hrun he hx := by
    obtain ⟨a, d, hpa, hka⟩ := bind_ok.1 hrun
    by_cases hax : F a x
    · obtain ⟨c', f, hcc, hf⟩ := h.run hc hpa trivial hax
      exact ⟨c', f, hcc, bind_error.2 (.inl hf)⟩
    · have hd := hc.of_reaches ((hp.stays c).within hpa)
      obtain ⟨d', f, hdd, hf⟩ := (hk a).run hd hka he ⟨hx, hax⟩
      obtain ⟨c', hcc, hpa'⟩ := hdd.before hp hpa
      exact ⟨c', f, hcc, bind_error.2 (.inr ⟨a, d', hpa', hf⟩)⟩

theorem after {k : α → Parse β} (hp : Tracks o M p) (hk : ∀ a, Breaks o H G (k a)) :
    Breaks o H G (p >>= k) :=
  bind (F := fun _ _ => False) hp (absent fun _ _ => not_false) fun a => {
    run hc hrun he hx := (hk a).run hc hrun he hx.1 }

theorem map {g : α → β} (h : Breaks o H F p) (hF : ∀ a x, G (g a) x → F a x) :
    Breaks o H G (p >>= fun a => Pure.pure (g a)) where
  run {c b e x} hc hrun he hx := by
    obtain ⟨a, d, hpa, hpure⟩ := bind_ok.1 hrun
    obtain ⟨rfl, rfl⟩ := pure_ok.1 hpure
    obtain ⟨c', f, hcc, hf⟩ := h.run hc hpa he (hF a x hx)
    exact ⟨c', f, hcc, bind_error.2 (.inl hf)⟩

theorem ite {y : Prop} [Decidable y] {q : Parse α} (hp : Breaks o H F p) (hq : Breaks o H F q) :
    Breaks o H F (if y then p else q) := by
  by_cases hy : y
  · rwa [if_pos hy]
  · rwa [if_neg hy]

section Repetition

variable {item : Parse (Option α)}

theorem collect (ht : Tracks o (·.isSome = true) item)
    (h : Breaks o Trailing (fun r x => ∃ a ∈ r, F a x) item)
    (hstart : ∀ {c r d}, item o c = .ok (r, d) →
      Trailing c.current.token ∧ (r.isSome = true → c.current.token ≠ .endOfInput))
    {turns : List Reading} {as : List α} {a : α} (hc : c.Whole)
    (hturns : c.remaining.length ≤ turns.length)
    (hrun : Parse.collect (fun _ => false) item turns o c = .ok (as, d)) (ha : a ∈ as)
    (hx : F a x) :
    ∃ c' f, Unterminated x c c' f ∧ ∀ turns' : List Reading,
      c'.remaining.length ≤ turns'.length →
      Parse.collect (fun _ => false) item turns' o c' = .error f := by
  induction turns generalizing c as with
  | nil =>
    cases (pure_ok.1 hrun).1
    cases ha
  | cons _ turns ih =>
    obtain ⟨r, e, hitem, hmore⟩ := bind_ok.1 hrun
    cases r with
    | none =>
      cases (pure_ok.1 hmore).1
      cases ha
    | some b =>
      obtain ⟨bs, e', hbs, hpure⟩ := bind_ok.1 hmore
      obtain ⟨rfl, rfl⟩ := pure_ok.1 hpure
      have hahead := hc.ahead_ne_nil ((hstart hitem).2 rfl)
      have hlt := ht.moves hitem rfl hahead
      have he := hc.of_reaches ((ht.stays c).within hitem)
      by_cases hb : F b x
      · have htrailing : Trailing e.current.token := by
          obtain ⟨_, turns, rfl⟩ : ∃ r more, turns = r :: more := by
            refine e.exists_turn ?_
            rw [List.length_cons] at hturns
            omega
          obtain ⟨r, g, hnext, -⟩ := bind_ok.1 hbs
          exact (hstart hnext).1
        obtain ⟨c', f, hcc, hf⟩ := h.run hc hitem htrailing ⟨b, rfl, hb⟩
        refine ⟨c', f, hcc, fun turns' hturns' => ?_⟩
        obtain ⟨_, turns', rfl⟩ := c'.exists_turn hturns'
        exact bind_error.2 (.inl hf)
      · have ha' : a ∈ bs := (List.mem_cons.1 ha).resolve_left fun hab => hb (hab ▸ hx)
        rw [List.length_cons] at hturns
        obtain ⟨e', f, hee, hf⟩ := ih he (by omega) hbs ha'
        obtain ⟨c', hcc, hitem'⟩ := hee.before ht hitem
        have hlt' := ht.moves hitem' rfl hcc.ahead_ne_nil
        refine ⟨c', f, hcc, fun turns' hturns' => ?_⟩
        obtain ⟨_, turns', rfl⟩ := c'.exists_turn hturns'
        rw [List.length_cons] at hturns'
        exact bind_error.2 (.inr ⟨some b, e', hitem',
          bind_error.2 (.inl (hf turns' (by omega)))⟩)

theorem many (ht : Tracks o (·.isSome = true) item)
    (h : Breaks o Trailing (fun r x => ∃ a ∈ r, F a x) item)
    (hstart : ∀ {c r d}, item o c = .ok (r, d) →
      Trailing c.current.token ∧ (r.isSome = true → c.current.token ≠ .endOfInput)) :
    Breaks o (fun _ => True) (fun as x => ∃ a ∈ as, F a x) (Parse.many item) where
  run hc hrun _ hx := by
    obtain ⟨a, ha, hx⟩ := hx
    obtain ⟨c', f, hcc, hf⟩ := collect ht h hstart hc (Nat.le_refl _) hrun ha hx
    exact ⟨c', f, hcc, hf _ (Nat.le_refl _)⟩

end Repetition

end Breaks

end Combinators

end MailSieve
