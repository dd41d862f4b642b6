import MailSieve.Grammar.Value
import MailSieve.Proofs.Reading.Reads

/-! Two readings that part at a place that is no token.
One cursor has a misreading ahead, another has something else in its place; up to there they have
the same tokens. `Tracks` says that a parser does the same from both until it moves on to the
misreading, and that from the other cursor it then stays within what stands in its place. The lemmas
here follow the combinators of `Parse`. -/

namespace MailSieve

open Parse

/-- Only tokens stand in `rs` before `rs'`. -/
def Reaches (rs rs' : List Reading) : Prop := ∃ ls : List Lexeme, rs = ls.map .ok ++ rs'

namespace Reaches

variable {rs rs' rs'' : List Reading}

theorem refl : Reaches rs rs := ⟨[], rfl⟩

theorem trans (h : Reaches rs rs') (h' : Reaches rs' rs'') : Reaches rs rs'' := by
  obtain ⟨ls, rfl⟩ := h
  obtain ⟨ks, rfl⟩ := h'
  exact ⟨ls ++ ks, by rw [List.map_append, List.append_assoc]⟩

theorem cons {l : Lexeme} : Reaches (.ok l :: rs) rs := ⟨[l], rfl⟩

theorem length_le (h : Reaches rs rs') : rs'.length ≤ rs.length := by
  obtain ⟨ls, rfl⟩ := h
  simp

theorem last {l k : Lexeme} (h : Reaches [.ok l] (.ok k :: rs)) : k = l := by
  obtain ⟨ls, h⟩ := h
  cases ls with
  | nil =>
    cases h
    rfl
  | cons l ls => simp at h

theorem not_ok {m : Misreading} {l : Lexeme} : ¬ Reaches (.error m :: rs) (.ok l :: rs') := by
  rintro ⟨ls, h⟩
  cases ls <;> cases h

end Reaches

/-- What cannot be read, or has an alternative missing, stands in `rs`. -/
def Fault.From (rs : List Reading) : Fault → Prop
  | lexical m => ∃ more, Reaches rs (.error m :: more)
  | unexpected location _ _ => ∃ l more, Reaches rs (.ok l :: more) ∧ l.location = location
  | _ => True

theorem Fault.From.mono {rs rs' : List Reading} {f : Fault} (h : f.From rs)
    (hrs : Reaches rs' rs) : f.From rs' := by
  cases f with
  | lexical m =>
    obtain ⟨more, hm⟩ := h
    exact ⟨more, hrs.trans hm⟩
  | unexpected location found expected =>
    obtain ⟨l, more, hl, hloc⟩ := h
    exact ⟨l, more, hrs.trans hl, hloc⟩
  | _ => trivial

/-- A reading ends within `rs`. -/
structure Stays {α : Type} (rs : List Reading) (r : Except Fault (α × Cursor)) : Prop where
  within : ∀ {a d}, r = .ok (a, d) → Reaches rs d.remaining
  fault : ∀ {f}, r = .error f → f.From rs

namespace Stays

variable {α β : Type} {o : ParseOptions} {p : Parse α} {q : α → Parse β}
variable {rs : List Reading} {c : Cursor}

theorem ok {a : α} (h : Reaches rs c.remaining) : Stays rs (.ok (a, c)) where
  within hr := by
    cases hr
    exact h
  fault := nofun

theorem error {f : Fault} (h : f.From rs) : Stays rs (.error f : Except Fault (α × Cursor)) where
  within := nofun
  fault hr := by
    cases hr
    exact h

theorem mono {rs' : List Reading} {r : Except Fault (α × Cursor)} (h : Stays rs r)
    (hrs : Reaches rs' rs) : Stays rs' r where
  within hr := hrs.trans (h.within hr)
  fault hr := (h.fault hr).mono hrs

theorem bind (hp : Stays rs (p o c)) (hq : ∀ a d, Stays d.remaining (q a o d)) :
    Stays rs ((p >>= q) o c) := by
  rw [bind_run]
  cases hr : p o c with
  | error f => exact error (hp.fault hr)
  | ok r => exact (hq r.1 r.2).mono (hp.within hr)

end Stays

/-- The cursor `d` has `tail` ahead where `c` has `rest`. -/
def Cursor.Parts (rest tail : List Reading) (c d : Cursor) : Prop :=
  ∃ ls : List Lexeme, c.ahead = ls.map .ok ++ rest ∧ d = { c with ahead := ls.map .ok ++ tail }

namespace Cursor.Parts

variable {rest tail : List Reading} {c d : Cursor}

theorem note (h : c.Parts rest tail d) (e : Expected) : (c.note e).Parts rest tail (d.note e) := by
  obtain ⟨ls, hc, rfl⟩ := h
  refine ⟨ls, ?_, ?_⟩
  · rw [Cursor.note]
    split <;> exact hc
  · rw [Cursor.note, Cursor.note]
    split <;> rfl

theorem current (h : c.Parts rest tail d) : d.current = c.current := by
  obtain ⟨ls, -, rfl⟩ := h
  rfl

theorem ahead_ne_nil (h : c.Parts rest tail d) (hr : rest ≠ []) : c.ahead ≠ [] := by
  obtain ⟨ls, hc, -⟩ := h
  simp [hc, hr]

theorem ahead_ne_nil_right (h : c.Parts rest tail d) (ht : tail ≠ []) : d.ahead ≠ [] := by
  obtain ⟨ls, -, rfl⟩ := h
  simp [ht]

end Cursor.Parts

/-- What `p` does from a cursor that has a misreading ahead, `q` does from the other cursor, where
at most `n` readings remain for the one and `k` for the other. -/
structure Beside {α : Type} (o : ParseOptions) (n k : Nat) (p q : Parse α) : Prop where
  goesOn : ∀ {m more tail c c' a d}, tail ≠ [] → c.Parts (.error m :: more) tail c' →
    c.remaining.length ≤ n → c'.remaining.length ≤ k → p o c = .ok (a, d) →
    ∃ d', q o c' = .ok (a, d') ∧ d.Parts (.error m :: more) tail d'
  halts : ∀ {m more tail c c' x}, tail ≠ [] → c.Parts (.error m :: more) tail c' →
    c.remaining.length ≤ n → c'.remaining.length ≤ k → p o c = .error (.lexical x) →
    Stays tail (q o c')
  fails : ∀ {m more tail c c' f}, tail ≠ [] → c.Parts (.error m :: more) tail c' →
    c.remaining.length ≤ n → c'.remaining.length ≤ k → p o c = .error f →
    (∀ x, f ≠ .lexical x) → q o c' = .error f

/-- Where `M` holds of the result, a token has been passed over. -/
structure Tracks {α : Type} (o : ParseOptions) (M : α → Prop) (p : Parse α) : Prop where
  stays : ∀ c, Stays c.remaining (p o c)
  moves : ∀ {c a d}, p o c = .ok (a, d) → M a → c.ahead ≠ [] →
    d.remaining.length < c.remaining.length
  beside : ∀ n k, Beside o n k p p

def Never {α : Type} : α → Prop := fun _ => False

def Always {α : Type} : α → Prop := fun _ => True

namespace Beside

variable {α β : Type} {o : ParseOptions} {M : α → Prop} {n k : Nat}

theorem bind {p : Parse α} {q r : α → Parse β} (hp : Tracks o M p)
    (hr : ∀ a d, Stays d.remaining (r a o d)) (hq : ∀ a, ¬ M a → Beside o n k (q a) (r a))
    (hqM : ∀ a, M a → Beside o (n - 1) (k - 1) (q a) (r a)) :
    Beside o n k (p >>= q) (p >>= r) where
  goesOn {m more tail c c' b e} ht hcc hn hk h := by
    obtain ⟨a, d, hpa, hqa⟩ := bind_ok.1 h
    obtain ⟨d', hpa', hdd⟩ := (hp.beside n k).goesOn ht hcc hn hk hpa
    have hle := ((hp.stays c).within hpa).length_le
    have hle' := ((hp.stays c').within hpa').length_le
    suffices ∃ e', r a o d' = .ok (b, e') ∧ e.Parts (.error m :: more) tail e' by
      obtain ⟨e', hra, hee⟩ := this
      exact ⟨e', bind_ok.2 ⟨a, d', hpa', hra⟩, hee⟩
    by_cases ha : M a
    · have hlt := hp.moves hpa ha (hcc.ahead_ne_nil (by simp))
      have hlt' := hp.moves hpa' ha (hcc.ahead_ne_nil_right ht)
      exact (hqM a ha).goesOn ht hdd (by omega) (by omega) hqa
    · exact (hq a ha).goesOn ht hdd (by omega) (by omega) hqa
  halts {m more tail c c' x} ht hcc hn hk h := by
    obtain hpx | ⟨a, d, hpa, hqa⟩ := bind_error.1 h
    · exact ((hp.beside n k).halts ht hcc hn hk hpx).bind hr
    · obtain ⟨d', hpa', hdd⟩ := (hp.beside n k).goesOn ht hcc hn hk hpa
      have hle := ((hp.stays c).within hpa).length_le
      have hle' := ((hp.stays c').within hpa').length_le
      rw [bind_run, hpa']
      change Stays tail (r a o d')
      by_cases ha : M a
      · have hlt := hp.moves hpa ha (hcc.ahead_ne_nil (by simp))
        have hlt' := hp.moves hpa' ha (hcc.ahead_ne_nil_right ht)
        exact (hqM a ha).halts ht hdd (by omega) (by omega) hqa
      · exact (hq a ha).halts ht hdd (by omega) (by omega) hqa
  fails {m more tail c c' f} ht hcc hn hk h hf := by
    obtain hpf | ⟨a, d, hpa, hqa⟩ := bind_error.1 h
    · exact bind_error.2 (.inl ((hp.beside n k).fails ht hcc hn hk hpf hf))
    · obtain ⟨d', hpa', hdd⟩ := (hp.beside n k).goesOn ht hcc hn hk hpa
      have hle := ((hp.stays c).within hpa).length_le
      have hle' := ((hp.stays c').within hpa').length_le
      refine bind_error.2 (.inr ⟨a, d', hpa', ?_⟩)
      by_cases ha : M a
      · have hlt := hp.moves hpa ha (hcc.ahead_ne_nil (by simp))
        have hlt' := hp.moves hpa' ha (hcc.ahead_ne_nil_right ht)
        exact (hqM a ha).fails ht hdd (by omega) (by omega) hqa hf
      · exact (hq a ha).fails ht hdd (by omega) (by omega) hqa hf

theorem map {p q : Parse α} (h : Beside o n k p q) (f : α → β) :
    Beside o n k (p >>= fun a => pure (f a)) (q >>= fun a => pure (f a)) where
  goesOn ht hcc hn hk hp := by
    obtain ⟨a, d, hpa, hf⟩ := bind_ok.1 hp
    obtain ⟨rfl, rfl⟩ := pure_ok.1 hf
    obtain ⟨d', hqa, hdd⟩ := h.goesOn ht hcc hn hk hpa
    exact ⟨d', bind_ok.2 ⟨a, d', hqa, rfl⟩, hdd⟩
  halts ht hcc hn hk hp := by
    obtain hpx | ⟨a, d, hpa, hf⟩ := bind_error.1 hp
    · exact (h.halts ht hcc hn hk hpx).bind fun _ _ => .ok .refl
    · cases hf
  fails ht hcc hn hk hp hf := by
    obtain hpf | ⟨a, d, hpa, hfa⟩ := bind_error.1 hp
    · exact bind_error.2 (.inl (h.fails ht hcc hn hk hpf hf))
    · cases hfa

theorem zero {p q : Parse α} : Beside o 0 k p q where
  goesOn _ _ hn := absurd hn (Nat.not_succ_le_zero _)
  halts _ _ hn := absurd hn (Nat.not_succ_le_zero _)
  fails _ _ hn := absurd hn (Nat.not_succ_le_zero _)

theorem zero_right {p q : Parse α} : Beside o n 0 p q where
  goesOn _ _ _ hk := absurd hk (Nat.not_succ_le_zero _)
  halts _ _ _ hk := absurd hk (Nat.not_succ_le_zero _)
  fails _ _ _ hk := absurd hk (Nat.not_succ_le_zero _)

theorem ite {c : Prop} [Decidable c] {p q p' q' : Parse α} (h : Beside o n k p q)
    (h' : Beside o n k p' q') : Beside o n k (if c then p else p') (if c then q else q') := by
  by_cases hc : c
  · rwa [if_pos hc, if_pos hc]
  · rwa [if_neg hc, if_neg hc]

end Beside

namespace Tracks

variable {α β : Type} {o : ParseOptions} {M : α → Prop} {N : β → Prop} {p : Parse α}

theorem mono {M' : α → Prop} (h : Tracks o M p) (hM : ∀ a, M' a → M a) : Tracks o M' p where
  stays := h.stays
  moves hp hm := h.moves hp (hM _ hm)
  beside := h.beside

theorem bind {q : α → Parse β} (hp : Tracks o M p)
    (hq : ∀ a, Tracks o (fun b => ¬ M a ∧ N b) (q a)) : Tracks o N (p >>= q) where
  stays c := (hp.stays c).bind fun a => (hq a).stays
  moves {c b e} h hb hc := by
    obtain ⟨a, d, hpa, hqa⟩ := bind_ok.1 h
    have hd := ((hp.stays c).within hpa).length_le
    have he := (((hq a).stays d).within hqa).length_le
    by_cases ha : M a
    · exact Nat.lt_of_le_of_lt he (hp.moves hpa ha hc)
    · by_cases hda : d.ahead = []
      · have hpos := List.length_pos_iff.2 hc
        simp only [Cursor.remaining, List.length_cons, hda, List.length_nil] at he ⊢
        omega
      · exact Nat.lt_of_lt_of_le ((hq a).moves hqa ⟨ha, hb⟩ hda) hd
  beside n k := .bind hp (fun a => (hq a).stays) (fun a _ => (hq a).beside n k) fun a _ =>
    (hq a).beside (n - 1) (k - 1)

theorem andThen {q : α → Parse β} (hp : Tracks o M p) (hq : ∀ a, Tracks o N (q a)) :
    Tracks o N (p >>= q) :=
  hp.bind fun a => (hq a).mono fun _ => And.right

theorem moved {q : α → Parse β} (hp : Tracks o Always p) (hq : ∀ a, Tracks o Never (q a)) :
    Tracks o N (p >>= q) :=
  hp.bind fun a => (hq a).mono fun _ h => h.1 trivial

theorem ite {c : Prop} [Decidable c] {p' : Parse α} (h : Tracks o M p) (h' : Tracks o M p') :
    Tracks o M (if c then p else p') := by
  by_cases hc : c
  · rwa [if_pos hc]
  · rwa [if_neg hc]

theorem still {f : Cursor → α} {g : Cursor → Cursor} (hp : ∀ c, p o c = .ok (f c, g c))
    (hM : ∀ c, ¬ M (f c)) (hg : ∀ c, (g c).remaining = c.remaining)
    (hf : ∀ {rest tail c d}, c.Parts rest tail d → f d = f c ∧ (g c).Parts rest tail (g d)) :
    Tracks o M p where
  stays c := by
    rw [hp]
    exact .ok ((hg c).symm ▸ Reaches.refl)
  moves {c a d} h hm := by
    rw [hp] at h
    cases h
    exact absurd hm (hM c)
  beside n k := {
    goesOn {m more tail c c' a d} _ hcc _ _ h := by
      rw [hp] at h
      cases h
      obtain ⟨hv, hparts⟩ := hf hcc
      exact ⟨g c', by rw [hp, hv], hparts⟩
    halts _ _ _ _ h := by
      rw [hp] at h
      cases h
    fails _ _ _ _ h := by
      rw [hp] at h
      cases h }

theorem result {a : α} (h : ¬ M a) : Tracks o M (Pure.pure a) :=
  still (f := fun _ => a) (g := id) (fun _ => rfl) (fun _ => h) (fun _ => rfl) fun h => ⟨rfl, h⟩

theorem pure {a : α} : Tracks o Never (Pure.pure a) := result not_false

theorem note {e : Expected} : Tracks o Never (Parse.note e) :=
  still (f := fun _ => ()) (g := (·.note e)) (fun _ => rfl) (fun _ => not_false)
    (fun c => c.remaining_note e) fun h => ⟨rfl, h.note e⟩

theorem peek : Tracks o Never Parse.peek :=
  still (f := (·.current)) (g := id) (fun _ => rfl) (fun _ => not_false) (fun _ => rfl)
    fun h => ⟨h.current, h⟩

theorem located {l : Location} : Tracks o Never (Parse.located l) :=
  still (f := fun _ => if o.locations then some l else none) (g := id) (fun _ => rfl)
    (fun _ => not_false) (fun _ => rfl) fun h => ⟨rfl, h⟩

theorem span {start : Position} : Tracks o Never (Parse.span start) := by
  refine still (f := fun c => if o.locations then some ⟨start, c.lastStop⟩ else none) (g := id)
    (fun _ => rfl) (fun _ => not_false) (fun _ => rfl) fun h => ⟨?_, h⟩
  obtain ⟨ls, -, rfl⟩ := h
  rfl

theorem options : Tracks o Never (read : Parse ParseOptions) :=
  still (f := fun _ => o) (g := id) (fun _ => rfl) (fun _ => not_false) (fun _ => rfl)
    fun h => ⟨rfl, h⟩

theorem fault {f : Cursor → Fault} (hf : ∀ c, (f c).From c.remaining)
    (hlex : ∀ c x, f c ≠ .lexical x)
    (hparts : ∀ {rest tail c d}, c.Parts rest tail d → f d = f c) (hp : ∀ c, p o c = .error (f c)) :
    Tracks o M p where
  stays c := by
    rw [hp]
    exact .error (hf c)
  moves h := by
    rw [hp] at h
    cases h
  beside n k := {
    goesOn _ _ _ _ h := by
      rw [hp] at h
      cases h
    halts {m more tail c c' x} _ _ _ _ h := by
      rw [hp, Except.error.injEq] at h
      exact absurd h (hlex c x)
    fails {m more tail c c' g} _ hcc _ _ h _ := by
      rw [hp] at h ⊢
      rw [hparts hcc, h] }

theorem fail : Tracks o M (Parse.fail : Parse α) := by
  refine fault (f := Cursor.unexpected) (fun c => ⟨c.current, c.ahead, .refl, rfl⟩) nofun ?_
    fun _ => rfl
  rintro rest tail c d ⟨ls, -, rfl⟩
  rfl

theorem refuse {f : Fault} (hf : ∀ rs, f.From rs) : Tracks o M (throw f : Parse α) := by
  refine fault (f := fun _ => f) (fun c => hf c.remaining) ?_ (fun _ => rfl) fun _ => rfl
  rintro - x rfl
  obtain ⟨more, ls, hls⟩ : (Fault.lexical x).From [] := hf []
  simp at hls

theorem tooDeep {l : Lexeme} : Tracks o M (Parse.tooDeep l : Parse α) :=
  fault (f := fun _ => .tooDeep o.maxDepth l.location l.found) (fun _ => trivial) nofun
    (fun _ => rfl) fun _ => rfl

theorem advance : Tracks o Always Parse.advance where
  stays c := by
    rw [Parse.advance, Cursor.next]
    split
    · exact .ok (.refl)
    · next m more hc => exact .error ⟨more, by rw [Cursor.remaining, hc]; exact .cons⟩
    · next l more hc => exact .ok (by rw [Cursor.remaining, Cursor.remaining, hc]; exact .cons)
  moves {c a d} h _ hc := by
    obtain ⟨hd, -⟩ := advance_ok.1 h
    rw [Cursor.next] at hd
    split at hd
    · contradiction
    · cases hd
    · next l more hc =>
      cases hd
      simp [Cursor.remaining, hc]
  beside n k := {
    goesOn {m more tail c c' a d} _ hcc _ _ h := by
      obtain ⟨ls, hc, rfl⟩ := hcc
      obtain ⟨hd, rfl⟩ := advance_ok.1 h
      rw [Cursor.next, hc] at hd
      cases ls with
      | nil => cases hd
      | cons l ls =>
        cases hd
        exact ⟨_, advance_ok.2 ⟨rfl, rfl⟩, ls, rfl, rfl⟩
    halts {m more tail c c' x} ht hcc _ _ h := by
      obtain ⟨ls, hc, rfl⟩ := hcc
      rw [Parse.advance, Cursor.next, hc] at h
      cases ls with
      | nil =>
        rw [Parse.advance, Cursor.next]
        obtain ⟨r, more, rfl⟩ := List.exists_cons_of_ne_nil ht
        cases r with
        | error n => exact .error ⟨more, .refl⟩
        | ok l => exact .ok .refl
      | cons l ls => cases h
    fails {m more tail c c' f} _ hcc _ _ h hf := by
      obtain ⟨ls, hc, rfl⟩ := hcc
      rw [Parse.advance, Cursor.next, hc] at h
      cases ls with
      | nil =>
        cases h
        exact absurd rfl (hf m)
      | cons l ls => cases h }

theorem none : Tracks o (·.isSome = true) (Pure.pure (Option.none : Option α)) :=
  result Bool.false_ne_true

section Tokens

variable {m : Punctuation} {word : String}

theorem isAt : Tracks o Never (Parse.isAt m) := .andThen note fun _ => .andThen peek fun _ => pure

theorem eat : Tracks o (· = true) (Parse.eat m) := by
  refine .andThen isAt fun b => ?_
  cases b with
  | false => exact result Bool.false_ne_true
  | true => exact .moved advance fun _ => pure

theorem expect : Tracks o Always (Parse.expect m) := .andThen isAt fun _ => .ite advance fail

theorem eatWord : Tracks o Never (Parse.eatWord word) :=
  .andThen note fun _ => .andThen peek fun _ => .ite (.moved advance fun _ => pure) pure

theorem nextTag : Tracks o (·.isSome = true) Parse.nextTag := by
  refine .andThen note fun _ => .andThen peek fun l => ?_
  obtain ⟨token, location, text⟩ := l
  cases token with
  | tag name => exact .moved advance fun _ => pure
  | _ => exact none

end Tokens

section Loop

variable {step : α → Parse (Option α)}

theorem loop_stays (h : ∀ a, Tracks o (·.isSome = true) (step a)) (turns : List Reading) (a : α)
    (c : Cursor) : Stays c.remaining (Parse.loop step turns a o c) := by
  induction turns generalizing a c with
  | nil => exact stays pure c
  | cons _ turns ih =>
    refine ((h a).stays c).bind fun r d => ?_
    cases r with
    | none => exact stays pure d
    | some a => exact ih a d

/-- The turns do not run out as long as there are as many as readings that remain. -/
theorem loop_beside (h : ∀ a, Tracks o (·.isSome = true) (step a)) (turns turns' : List Reading)
    (a : α) : Beside o turns.length turns'.length (Parse.loop step turns a)
      (Parse.loop step turns' a) := by
  induction turns generalizing turns' a with
  | nil => exact .zero
  | cons _ turns ih =>
    cases turns' with
    | nil => exact .zero_right
    | cons _ turns' =>
      refine .bind (h a) (fun r d => ?_) (fun r hr => ?_) fun r hr => ?_
      · cases r with
        | none => exact stays pure d
        | some b => exact loop_stays h turns' b d
      · cases r with
        | none => exact beside pure _ _
        | some b => exact absurd rfl hr
      · cases r with
        | none => cases hr
        | some b => exact ih turns' b

theorem iterate (h : ∀ a, Tracks o (·.isSome = true) (step a)) (a : α) :
    Tracks o Never (Parse.iterate step a) where
  stays c := loop_stays h _ a c
  moves _ hm := hm.elim
  beside _ _ := {
    goesOn ht hcc _ _ hl :=
      (loop_beside h _ _ a).goesOn ht hcc (Nat.le_refl _) (Nat.le_refl _) hl
    halts ht hcc _ _ hl :=
      (loop_beside h _ _ a).halts ht hcc (Nat.le_refl _) (Nat.le_refl _) hl
    fails ht hcc _ _ hl :=
      (loop_beside h _ _ a).fails ht hcc (Nat.le_refl _) (Nat.le_refl _) hl }

end Loop

section Collect

variable {isLast : α → Bool} {item : Parse (Option α)}

theorem turn_stays {q : Parse (List α)} (hq : ∀ d, Stays d.remaining (q o d)) (r : Option α)
    (d : Cursor) : Stays d.remaining ((match r with
      | Option.none => Pure.pure []
      | Option.some a => if isLast a then Pure.pure [a] else do
        let as ← q
        Pure.pure (a :: as) : Parse (List α)) o d) := by
  cases r with
  | none => exact stays pure d
  | some a =>
    dsimp only
    split
    · exact stays pure d
    · exact (hq d).bind fun as e => stays pure e

theorem collect_stays (h : Tracks o (·.isSome = true) item) (turns : List Reading) (c : Cursor) :
    Stays c.remaining (Parse.collect isLast item turns o c) := by
  induction turns generalizing c with
  | nil => exact stays pure c
  | cons _ turns ih => exact (h.stays c).bind (turn_stays ih)

theorem collect_beside (h : Tracks o (·.isSome = true) item) (turns turns' : List Reading) :
    Beside o turns.length turns'.length (Parse.collect isLast item turns)
      (Parse.collect isLast item turns') := by
  induction turns generalizing turns' with
  | nil => exact .zero
  | cons _ turns ih =>
    cases turns' with
    | nil => exact .zero_right
    | cons _ turns' =>
      refine .bind h (turn_stays (collect_stays h turns')) (fun r hr => ?_) fun r hr => ?_
      · cases r with
        | none => exact beside pure _ _
        | some a => exact absurd rfl hr
      · cases r with
        | none => cases hr
        | some a => exact .ite (beside pure _ _) ((ih turns').map (a :: ·))

theorem manyUntil (h : Tracks o (·.isSome = true) item) :
    Tracks o Never (Parse.manyUntil isLast item) where
  stays c := collect_stays h _ c
  moves _ hm := hm.elim
  beside _ _ := {
    goesOn ht hcc _ _ hl :=
      (collect_beside h _ _).goesOn ht hcc (Nat.le_refl _) (Nat.le_refl _) hl
    halts ht hcc _ _ hl :=
      (collect_beside h _ _).halts ht hcc (Nat.le_refl _) (Nat.le_refl _) hl
    fails ht hcc _ _ hl :=
      (collect_beside h _ _).fails ht hcc (Nat.le_refl _) (Nat.le_refl _) hl }

theorem some (h : Tracks o Always p) :
    Tracks o (·.isSome = true) (p >>= fun a => Pure.pure (Option.some a)) :=
  h.moved fun _ => pure

theorem commaSeparated (h : Tracks o Always p) : Tracks o Always (Parse.commaSeparated p) := by
  have hitem : Tracks o (·.isSome = true) (afterComma p) :=
    .andThen eat fun _ => .ite h.some none
  exact h.moved fun _ => (manyUntil hitem).andThen fun _ => pure

end Collect

end Tracks

end MailSieve
