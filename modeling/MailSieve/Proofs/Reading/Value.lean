import MailSieve.Proofs.Reading.Repeat
import MailSieve.Grammar.Value

/-! Strings, string lists and numbers: each is read as its phrase, and any token may follow, except
that a comma goes on with a list. -/

namespace MailSieve

open Parse Phrase

variable {α β : Type} {o : ParseOptions}

namespace Cursor

theorem Ended.advance {c d : Cursor} {l : Lexeme} (hc : c.Ended) (h : advance o c = .ok (l, d))
    (ht : c.current.token ≠ .endOfInput) : c.Passes [c.current.token] d ∧ l = c.current := by
  obtain ⟨hn, rfl⟩ := advance_ok.1 h
  exact ⟨next_passes hn hc ht, rfl⟩

theorem Shows.advance {c : Cursor} {t u : Token} {ts : List Token} (h : c.Shows (t :: u :: ts)) :
    ∃ d, advance o c = .ok (c.current, d) ∧ d.Shows (u :: ts) := by
  obtain ⟨d, hn, hd⟩ := h.next (by simp)
  exact ⟨d, advance_ok.2 ⟨hn, rfl⟩, hd⟩

end Cursor

namespace Parse

def taken (x : Expected) (pick : Token → Option (Option Location → α)) : Parse α := do
  note x
  let l ← peek
  match pick l.token with
  | some make => do
    let _ ← advance
    pure (make (← located l.location))
  | none => fail

def pickString : Token → Option (Option Location → StringLit)
  | .string value multiline => some fun l => ⟨value, multiline, l⟩
  | _ => none

def pickNumber : Token → Option (Option Location → NumberLit)
  | .number value quantifier => some fun l => ⟨value, quantifier, l⟩
  | _ => none

end Parse

namespace Reads

theorem eat (m : Punctuation) :
    Reads o (eat m) (fun ts b => ts = if b then [.mark m] else [])
      (fun b t => b = false → t ≠ .mark m) where
  sound hc h := by
    obtain ⟨b, d, hb, h⟩ := bind_ok.1 h
    obtain ⟨hbt, rfl⟩ := isAt_ok.1 hb
    cases b with
    | true =>
      obtain ⟨l, e, ha, h⟩ := bind_ok.1 h
      obtain ⟨rfl, rfl⟩ := pure_ok.1 h
      have ht := of_decide_eq_true hbt
      have hs := (Cursor.Ended.advance (by simpa using hc) ha (by simp [ht])).1
      simp only [Cursor.current_note, Cursor.passes_note, ht] at hs
      exact ⟨_, hs, rfl⟩
    | false =>
      obtain ⟨rfl, rfl⟩ := pure_ok.1 h
      exact ⟨[], Cursor.passes_note_right _ _, rfl⟩
  complete := by
    rintro c _ b t rest rfl hf hc
    have hn := (Cursor.shows_note c (.literal (String.singleton m.char))).2 hc
    cases b with
    | true =>
      obtain ⟨d, ha, hd⟩ := Cursor.Shows.advance (o := o) hn
      have hm : decide (c.current.token = .mark m) = true := decide_eq_true hc.current
      exact ⟨d, bind_ok.2 ⟨true, _, isAt_ok.2 ⟨hm, rfl⟩, bind_ok.2 ⟨_, d, ha, rfl⟩⟩, hd⟩
    | false =>
      have hm : decide (c.current.token = .mark m) = false :=
        decide_eq_false (hc.current ▸ hf rfl)
      exact ⟨_, bind_ok.2 ⟨false, _, isAt_ok.2 ⟨hm, rfl⟩, rfl⟩, hn⟩

theorem taken_reads (ho : o.locations = false) {x : Expected}
    {pick : Token → Option (Option Location → α)} (hp : pick .endOfInput = none) :
    Reads o (taken x pick) (fun ts a => ∃ t make, ts = [t] ∧ pick t = some make ∧ a = make none)
      Free := by
  refine noteThen ⟨?_, ?_⟩
  · intro c a d hc h
    obtain ⟨l, e, hl, h⟩ := bind_ok.1 h
    obtain ⟨rfl, rfl⟩ := peek_ok.1 hl
    cases hm : pick c.current.token with
    | none =>
      rw [hm] at h
      cases h
    | some make =>
      rw [hm] at h
      obtain ⟨l, e, ha, h⟩ := bind_ok.1 h
      have ht : c.current.token ≠ .endOfInput := by
        intro ht
        rw [ht, hp] at hm
        cases hm
      rw [bind_run, located, ho] at h
      obtain ⟨rfl, rfl⟩ := pure_ok.1 h
      exact ⟨_, (hc.advance ha ht).1, _, make, rfl, hm, rfl⟩
  · rintro c _ _ t rest ⟨u, make, rfl, hm, rfl⟩ - hc
    obtain ⟨d, ha, hd⟩ := Cursor.Shows.advance (o := o) hc
    refine ⟨d, bind_ok.2 ⟨c.current, c, peek_ok.2 ⟨rfl, rfl⟩, ?_⟩, hd⟩
    rw [hc.current, hm]
    refine bind_ok.2 ⟨_, d, ha, ?_⟩
    rw [bind_run, located, ho]
    rfl

theorem string (ho : o.locations = false) : Reads o string StringPhrase Free := by
  have h : Parse.string = taken (.tokenClass "string") pickString := by
    rw [Parse.string, taken]
    refine congrArg _ (funext fun _ => congrArg _ (funext fun l => ?_))
    cases l.token <;> rfl
  rw [h]
  refine (taken_reads ho rfl).congr fun ts s => ⟨?_, ?_⟩
  · rintro ⟨t, make, rfl, hm, rfl⟩
    unfold pickString at hm
    split at hm
    · cases hm
      exact .mk _ _
    · cases hm
  · rintro ⟨value, multiline⟩
    exact ⟨_, _, rfl, rfl, rfl⟩

theorem number (ho : o.locations = false) : Reads o number NumberPhrase Free := by
  have h : Parse.number = taken (.tokenClass "number") pickNumber := by
    rw [Parse.number, taken]
    refine congrArg _ (funext fun _ => congrArg _ (funext fun l => ?_))
    cases l.token <;> rfl
  rw [h]
  refine (taken_reads ho rfl).congr fun ts s => ⟨?_, ?_⟩
  · rintro ⟨t, make, rfl, hm, rfl⟩
    unfold pickNumber at hm
    split at hm
    · cases hm
      exact .mk _ _
    · cases hm
  · rintro ⟨value, q⟩
    exact ⟨_, _, rfl, rfl, rfl⟩

section Separated

variable {item : Parse α} {G : List Token → α → Prop} {K : Token → Prop}

def AfterComma (G : List Token → α → Prop) (ts : List Token) : Option α → Prop
  | none => ts = []
  | some a => ∃ us, ts = .mark .comma :: us ∧ G us a

theorem separated_iff {ts : List Token} {as : List α} :
    Separated G ts as ↔ ∃ us vs a, ts = us ++ vs ∧ G us a
      ∧ ∃ bs, Repeated (fun _ => false) (AfterComma G) vs bs ∧ as = a :: bs := by
  constructor
  · intro h
    induction h with
    | @single ts a h => exact ⟨ts, [], a, by simp, h, [], .stop rfl, rfl⟩
    | @cons ts us a as h _ ih =>
      obtain ⟨xs, ys, b, rfl, hb, bs, hr, rfl⟩ := ih
      have hcomma : AfterComma G (.mark .comma :: xs) (some b) := ⟨xs, rfl, hb⟩
      exact ⟨ts, _, a, rfl, h, _, .more hcomma rfl hr, rfl⟩
  · rintro ⟨us, vs, a, rfl, ha, bs, hr, rfl⟩
    induction hr generalizing us a with
    | stop h =>
      cases h
      simpa using Separated.single ha
    | last _ h => cases h
    | more h _ _ ih =>
      obtain ⟨ws, rfl, hb⟩ := h
      exact .cons ha (ih ws _ hb)

theorem afterComma (hi : Reads o item G fun _ => K) :
    Reads o (afterComma item) (AfterComma G) (fun r t => if r.isNone then t ≠ .mark .comma else K t)
    where
  sound hc h := by
    obtain ⟨b, d, hb, h⟩ := bind_ok.1 h
    obtain ⟨ts, hts, rfl⟩ := (eat .comma).sound hc hb
    cases b with
    | true =>
      obtain ⟨a, e, ha, h⟩ := bind_ok.1 h
      obtain ⟨rfl, rfl⟩ := pure_ok.1 h
      obtain ⟨us, hus, hg⟩ := hi.sound (hts.ended hc) ha
      exact ⟨_, hts.trans hus, us, rfl, hg⟩
    | false =>
      obtain ⟨rfl, rfl⟩ := pure_ok.1 h
      exact ⟨_, hts, rfl⟩
  complete := by
    rintro c ts (_ | a) t rest hg hf hc
    · cases hg
      have hcomma := eat (o := o) .comma
      obtain ⟨d, hd, hs⟩ := hcomma.complete (a := false) rfl (fun _ => by simpa using hf) hc
      exact ⟨d, bind_ok.2 ⟨false, d, hd, rfl⟩, hs⟩
    · obtain ⟨us, rfl, hg⟩ := hg
      obtain ⟨xs, hx⟩ := Cursor.append_eq_headD_cons us t rest
      have hc' : c.Shows ([.mark .comma] ++ us.headD t :: xs) := by rw [← hx]; exact hc
      obtain ⟨d, hd, hs⟩ := (eat (o := o) .comma).complete (a := true) rfl nofun hc'
      obtain ⟨e, he, hes⟩ := hi.complete hg (by simpa using hf) (hx ▸ hs)
      exact ⟨e, bind_ok.2 ⟨true, d, hd, bind_ok.2 ⟨a, e, he, rfl⟩⟩, hes⟩

theorem followed (hcomma : K (.mark .comma)) {ts : List Token} {as : List α} {t : Token}
    (hr : Repeated (fun _ => false) (AfterComma G) ts as) (hk : K t ∧ t ≠ .mark .comma) :
    K (ts.headD t) := by
  cases hr with
  | stop h =>
    cases h
    exact hk.1
  | last _ h => cases h
  | more h _ _ =>
    obtain ⟨us, rfl, -⟩ := h
    exact hcomma

theorem commaSeparated (hi : Reads o item G fun _ => K) (hcomma : K (.mark .comma)) :
    Reads o (commaSeparated item) (Separated G) (fun _ t => K t ∧ t ≠ .mark .comma) := by
  have rest : Reads o (many (Parse.afterComma item)) (Repeated (fun _ => false) (AfterComma G))
      (fun _ t => K t ∧ t ≠ .mark .comma) := by
    refine (afterComma hi).manyUntil ?_ ?_ nofun ?_
    · rintro _ _ ⟨us, rfl, -⟩
      simp
    · intro _ _ _ hk
      simpa using hk.2
    · rintro _ _ a _ t - - hr hk
      exact followed hcomma hr hk
  refine (hi.bind (fun a => rest.map (a :: ·)) ?_).congr fun ts as => separated_iff.symm
  rintro _ vs _ _ t - ⟨as, hr, -⟩ hk
  exact followed hcomma hr hk

end Separated

theorem eat_bind (m : Punctuation) (p q : Parse β) :
    (isAt m >>= fun b => if b then advance >>= fun _ => p else q)
      = Parse.eat m >>= fun b => if b then p else q := by
  rw [Parse.eat, bind_assoc]
  refine congrArg _ (funext fun b => ?_)
  cases b <;> simp

theorem eatThen {m : Punctuation} {p q : Parse β} {G₁ G₂ : List Token → β → Prop}
    {K : β → Token → Prop} (hp : Reads o p G₁ K) (hq : Reads o q G₂ K)
    (hm : ∀ {ts b t}, G₂ ts b → K b t → ts.headD t ≠ .mark m) :
    Reads o (Parse.eat m >>= fun b => if b then p else q)
      (fun ts b => (∃ us, ts = .mark m :: us ∧ G₁ us b) ∨ G₂ ts b) K := by
  have branch (b : Bool) : Reads o (if b then p else q)
      (fun ts a => if b then G₁ ts a else G₂ ts a) K := by
    cases b
    · exact hq
    · exact hp
  refine ((eat m).bind branch ?_).congr fun ts a => ⟨?_, ?_⟩
  · rintro _ vs (_ | _) a t - hg hk
    · exact fun _ => hm hg hk
    · nofun
  · rintro ⟨_, vs, (_ | _), rfl, rfl, hg⟩
    · exact .inr hg
    · exact .inl ⟨vs, rfl, hg⟩
  · rintro (⟨us, rfl, hg⟩ | hg)
    · exact ⟨[.mark m], us, true, rfl, rfl, hg⟩
    · exact ⟨[], ts, false, rfl, rfl, hg⟩

theorem stringList (ho : o.locations = false) : Reads o stringList ListPhrase Free := by
  have strings : Reads o (Parse.commaSeparated Parse.string) (Separated StringPhrase)
      fun _ t => t ≠ .mark .comma :=
    ((string ho).commaSeparated (K := fun _ => True) trivial).follow fun _ h => ⟨trivial, h⟩
  refine peekThen fun l => (eatThen
    (strings.bind (fun ss => expectThen fun _ => spanThen ho l.location.start
      (result (StringList.mk ss none))) ?_)
    ((string ho).andThen fun s => spanThen ho l.location.start
      (result (StringList.mk [s] none))) ?_).congr fun ts l => ⟨?_, ?_⟩
  · rintro _ _ _ _ _ - ⟨_, rfl, -⟩ -
    simp
  · rintro _ _ _ ⟨_, _, _, rfl, ⟨⟩, -⟩ -
    simp
  · rintro (⟨_, rfl, us, _, ss, rfl, hs, _, rfl, rfl, rfl⟩ | ⟨us, _, s, rfl, hs, rfl, rfl⟩)
    · exact .brackets (.mk hs)
    · simpa using ListPhrase.single hs
  · rintro (hs | ⟨⟨hs⟩⟩)
    · exact .inr ⟨_, [], _, by simp, hs, rfl, rfl⟩
    · exact .inl ⟨_, rfl, _, _, _, rfl, hs, [], rfl, rfl, rfl⟩

def startsString : Token → Bool
  | .string _ _ => true
  | _ => false

def startsList (t : Token) : Bool := startsString t || t = .mark .openBracket

theorem looks_isAtString : Looks isAtString startsString := by
  intro o c
  refine ⟨c, ?_, rfl⟩
  rw [isAtString, bind_run]
  cases h : c.current.token <;> simp [peek, Except.bind, h, startsString, pure_run]

theorem looks_isAtStringList : Looks isAtStringList startsList := by
  intro o c
  refine ⟨(c.note (.literal "[")).note (.tokenClass "string"), ?_, by simp⟩
  cases h : c.current.token <;>
    simp [isAtStringList, bind_run, Parse.note, peek, Except.bind, h, startsList, startsString,
      pure_run]

theorem chosen (ho : o.locations = false) (ofWord? : String → Option α)
    (refuse : String → Location → Fault) :
    Reads o (chosen ofWord? refuse)
      (fun ts a => ∃ value multiline, ts = [.string value multiline] ∧ ofWord? value = some a)
      Free := by
  refine peekThen fun l => ⟨?_, ?_⟩
  · intro c d a hc h
    obtain ⟨s, e, hs, h⟩ := bind_ok.1 h
    obtain ⟨_, hts, ⟨value, multiline⟩⟩ := (string ho).sound hc hs
    cases hv : ofWord? value with
    | none =>
      simp only [hv] at h
      cases h
    | some b =>
      simp only [hv] at h
      obtain ⟨rfl, rfl⟩ := pure_ok.1 h
      exact ⟨_, hts, value, multiline, rfl, hv⟩
  · rintro c _ a t rest ⟨value, multiline, rfl, hv⟩ - hc
    obtain ⟨d, hd, hs⟩ := (string ho).complete (.mk value multiline) trivial hc
    refine ⟨d, bind_ok.2 ⟨_, d, hd, ?_⟩, hs⟩
    simp only [hv]
    rfl

end Reads

end MailSieve
