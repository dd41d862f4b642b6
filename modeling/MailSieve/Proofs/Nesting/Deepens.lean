import MailSieve.Proofs.Located.Recorded

/-! A reading with more room beside one with less.
Two parsers differ at most in how deep they let tests and blocks stand. `Deepens` says that the one
with more room does what the other does, unless the other is cut off at a token, in which case the
one with more room stays behind that token. The lemmas here follow the combinators of `Parse`, and
the parsers for which the limit plays no part. -/

namespace MailSieve

open Parse

namespace Places

/-- The readings that begin at `n` or behind it, whatever is recorded for nodes. -/
def behind (o : ParseOptions) (n : Nat) : Places o where
  reading r := n ≤ r.location.start.offset
  opens _ := True
  closes _ := True
  location _ := True
  start _ := trivial
  stop _ := trivial
  records _ _ _ := trivial

theorem behind_fault {o : ParseOptions} {n : Nat} {f : Fault}
    (h : f.Cites (behind o n).reading) : n ≤ f.diagnostic.location.start.offset := by
  obtain ⟨r, hr, hlocation⟩ := h.location
  exact hlocation ▸ hr

end Places

def Cursor.Ordered (c : Cursor) : Prop :=
  c.remaining.Pairwise fun r r' => r.location.start.offset ≤ r'.location.start.offset

section Ordered

variable {c d : Cursor}

theorem Cursor.Ordered.behind (h : c.Ordered) (o : ParseOptions) :
    (Places.behind o c.current.location.start.offset).Contains c where
  remaining r hr := by
    obtain rfl | hr := List.mem_cons.1 hr
    · exact Nat.le_refl _
    · exact (List.pairwise_cons.1 h).1 r hr
  lastStop := trivial

theorem Cursor.Ordered.next (h : c.Ordered) (hd : c.next = .ok d) : d.Ordered := by
  rw [Cursor.next] at hd
  split at hd
  · cases hd
    exact h
  · cases hd
  · next l more hc =>
    cases hd
    rw [Ordered, remaining, hc] at h
    exact (List.pairwise_cons.1 h).2

end Ordered

/-- The first run is cut off at `l`, and the second stays behind it. -/
structure CutOff {α : Type} (o o' : ParseOptions) (l : Lexeme)
    (r r' : Except Fault (α × Cursor)) : Prop where
  cut : r = .error (.tooDeep o.maxDepth l.location l.found)
  result : ∀ {a d}, r' = .ok (a, d) → (Places.behind o' l.location.start.offset).Contains d
  fault : ∀ {f}, r' = .error f → l.location.start.offset ≤ f.diagnostic.location.start.offset

/-- The run is the same and keeps the order of what remains. -/
structure Same {α : Type} (r r' : Except Fault (α × Cursor)) : Prop where
  eq : r' = r
  ordered : ∀ {a d}, r = .ok (a, d) → d.Ordered

/-- What `p` does under `o`, `p'` does under `o'`, but where `p` is cut off, as it may be only if
`D` holds. -/
def Deepens {α : Type} (o o' : ParseOptions) (D : Prop) (p p' : Parse α) : Prop :=
  ∀ c : Cursor, c.Ordered → Same (p o c) (p' o' c) ∨ D ∧ ∃ l, CutOff o o' l (p o c) (p' o' c)

/-- Whatever remains from `n` on, `p` reports no fault before it. -/
abbrev Onward {α : Type} (o : ParseOptions) (p : Parse α) : Prop :=
  ∀ n, Gives (.behind o n) Anything p

theorem Onward.of_gives {α : Type} {o : ParseOptions} {p : Parse α}
    {P : (n : Nat) → α → Prop} (h : ∀ n, Gives (.behind o n) (P n) p) : Onward o p :=
  fun n => (h n).mono fun _ _ => trivial

namespace Deepens

variable {α β : Type} {o o' : ParseOptions} {D E : Prop} {p p' : Parse α}

/-- Where the first part can be cut off, the second must go onward with what follows. -/
theorem compose {q q' : α → Parse β} (hp : Deepens o o' E p p') (hED : E → D)
    (hq : ∀ a, Deepens o o' D (q a) (q' a)) (ho : E → ∀ a, Onward o' (q' a)) :
    Deepens o o' D (p >>= q) (p' >>= q') := by
  intro c hc
  rw [bind_run, bind_run]
  obtain ⟨heq, hordered⟩ | ⟨hE, l, hcut⟩ := hp c hc
  · rw [heq]
    cases hr : p o c with
    | error f => exact .inl ⟨rfl, nofun⟩
    | ok r => exact hq r.1 r.2 (hordered hr)
  · refine .inr ⟨hED hE, l, by rw [hcut.cut]; rfl, ?_, ?_⟩
    all_goals cases hr : p' o' c with
      | error f => ?_
      | ok r => ?_
    · exact nofun
    · exact fun h => ((ho hE r.1 _).result (hcut.result hr) h).2
    · rintro _ ⟨⟩
      exact hcut.fault hr
    · exact fun h => Places.behind_fault ((ho hE r.1 _).fault (hcut.result hr) h)

theorem bind {q q' : α → Parse β} (hp : Deepens o o' D p p')
    (hq : ∀ a, Deepens o o' D (q a) (q' a)) (ho : D → ∀ a, Onward o' (q' a)) :
    Deepens o o' D (p >>= q) (p' >>= q') := hp.compose id hq ho

theorem after {q q' : α → Parse β} (hp : Deepens o o' False p p')
    (hq : ∀ a, Deepens o o' D (q a) (q' a)) : Deepens o o' D (p >>= q) (p' >>= q') :=
  hp.compose False.elim hq False.elim

theorem ite {c : Prop} [Decidable c] {q q' : Parse α} (h : Deepens o o' D p p')
    (h' : Deepens o o' D q q') :
    Deepens o o' D (if c then p else q) (if c then p' else q') := by
  by_cases hc : c
  · rwa [if_pos hc, if_pos hc]
  · rwa [if_neg hc, if_neg hc]

theorem still {f : Cursor → α} {g : Cursor → Cursor} (hp : ∀ c, p o c = .ok (f c, g c))
    (hp' : ∀ c, p' o' c = .ok (f c, g c)) (hg : ∀ c, (g c).remaining = c.remaining) :
    Deepens o o' D p p' := by
  intro c hc
  refine .inl ⟨by rw [hp, hp'], fun h => ?_⟩
  rw [hp] at h
  cases h
  rw [Cursor.Ordered, hg]
  exact hc

theorem pure {a : α} : Deepens o o' D (Pure.pure a) (Pure.pure a) :=
  still (f := fun _ => a) (g := id) (fun _ => rfl) (fun _ => rfl) fun _ => rfl

theorem note {e : Expected} : Deepens o o' D (Parse.note e) (Parse.note e) :=
  still (f := fun _ => ()) (g := (·.note e)) (fun _ => rfl) (fun _ => rfl)
    fun c => c.remaining_note e

theorem peek : Deepens o o' D Parse.peek Parse.peek :=
  still (f := (·.current)) (g := id) (fun _ => rfl) (fun _ => rfl) fun _ => rfl

theorem span (h : o.locations = o'.locations) {start : Position} :
    Deepens o o' D (Parse.span start) (Parse.span start) :=
  still (f := fun c => if o.locations then some ⟨start, c.lastStop⟩ else none) (g := id)
    (fun _ => rfl) (fun c => by rw [h]; rfl) fun _ => rfl

theorem located (h : o.locations = o'.locations) {l : Location} :
    Deepens o o' D (Parse.located l) (Parse.located l) :=
  still (f := fun _ => if o.locations then some l else none) (g := id) (fun _ => rfl)
    (fun _ => by rw [h]; rfl) fun _ => rfl

theorem fail : Deepens o o' D (Parse.fail : Parse α) Parse.fail := fun _ _ => .inl ⟨rfl, nofun⟩

theorem refuse {f : Fault} : Deepens o o' D (throw f : Parse α) (throw f) :=
  fun _ _ => .inl ⟨rfl, nofun⟩

theorem advance : Deepens o o' D Parse.advance Parse.advance :=
  fun _ hc => .inl ⟨rfl, fun h => hc.next (advance_ok.1 h).1⟩

theorem of_start (hp : ∀ c : Cursor, c.Ordered → Same (p o c) (p' o' c)
      ∨ p o c = .error (.tooDeep o.maxDepth c.current.location c.current.found))
    (hg : Onward o' p') : Deepens o o' True p p' := fun c hc =>
  (hp c hc).imp_right fun hcut => ⟨trivial, c.current, hcut,
    fun h => ((hg _).result (hc.behind o') h).2,
    fun h => Places.behind_fault ((hg _).fault (hc.behind o') h)⟩

theorem stop_after {c : Cursor} {l : Lexeme} {q q' : β → Parse α} {r : Parse β}
    (hr : Deepens o o' False r r)
    (hq : ∀ b d, r o c = .ok (b, d) → d.Ordered → Same (q b o d) (q' b o' d)
      ∨ q b o d = .error (.tooDeep o.maxDepth l.location l.found)) (hc : c.Ordered) :
    Same ((r >>= q) o c) ((r >>= q') o' c)
      ∨ (r >>= q) o c = .error (.tooDeep o.maxDepth l.location l.found) := by
  rw [bind_run, bind_run]
  obtain ⟨heq, hordered⟩ | ⟨h, -⟩ := hr c hc
  · rw [heq]
    cases h : r o c with
    | error f => exact .inl ⟨rfl, nofun⟩
    | ok x => exact hq x.1 x.2 h (hordered h)
  · exact h.elim

section Loop

theorem loop {step : α → Parse (Option α)} (h : ∀ a, Deepens o o' False (step a) (step a))
    (turns : List Reading) (a : α) :
    Deepens o o' D (Parse.loop step turns a) (Parse.loop step turns a) := by
  induction turns generalizing a with
  | nil => exact pure
  | cons _ turns ih =>
    refine (h a).after fun r => ?_
    cases r with
    | none => exact pure
    | some a => exact ih a

theorem iterate {step : α → Parse (Option α)} (h : ∀ a, Deepens o o' False (step a) (step a))
    (a : α) : Deepens o o' D (Parse.iterate step a) (Parse.iterate step a) :=
  fun c => loop h c.remaining a c

variable {isLast : α → Bool} {item item' : Parse (Option α)}

theorem collect (h : Deepens o o' D item item') (hg : D → Onward o' item')
    (turns : List Reading) :
    Deepens o o' D (Parse.collect isLast item turns) (Parse.collect isLast item' turns) := by
  induction turns with
  | nil => exact pure
  | cons _ turns ih =>
    refine h.bind (fun r => ?_) fun hD r n => ?_
    · cases r with
      | none => exact pure
      | some a => exact .ite pure (ih.bind (fun _ => pure) fun _ _ _ => .pure trivial)
    · cases r with
      | none => exact .pure trivial
      | some a =>
        have hmore : Gives (.behind o' n) (∀ a ∈ ·, Anything a)
            (Parse.collect isLast item' turns) :=
          .collect ((hg hD n).mono fun _ _ _ _ => trivial) turns
        exact .ite (.pure trivial) (hmore.andThen fun _ => .pure trivial)

theorem manyUntil (h : Deepens o o' D item item') (hg : D → Onward o' item') :
    Deepens o o' D (Parse.manyUntil isLast item) (Parse.manyUntil isLast item') :=
  fun c => collect h hg c.remaining c

end Loop

end Deepens

namespace Onward

variable {α : Type} {o : ParseOptions} {p : Parse α}

theorem some (h : Onward o p) : Onward o (p >>= fun a => Pure.pure (some a)) :=
  fun n => (h n).andThen fun _ => .pure trivial

theorem manyUntil {isLast : α → Bool} {item : Parse (Option α)} (h : Onward o item) :
    Onward o (Parse.manyUntil isLast item) := fun n =>
  (Gives.manyUntil (P := Anything) ((h n).mono fun _ _ _ _ => trivial)).mono fun _ _ => trivial

theorem afterComma (h : Onward o p) : Onward o (Parse.afterComma p) :=
  fun n => Gives.eat.andThen fun _ => .ite (h.some n) (.pure trivial)

end Onward

namespace Deepens

variable {α : Type} {o o' : ParseOptions} {D : Prop}

section Tokens

variable {m : Punctuation} {word : String}

theorem isAt : Deepens o o' D (Parse.isAt m) (Parse.isAt m) :=
  note.after fun _ => peek.after fun _ => pure

theorem eat : Deepens o o' D (Parse.eat m) (Parse.eat m) :=
  isAt.after fun _ => .ite (advance.after fun _ => pure) pure

theorem expect : Deepens o o' D (Parse.expect m) (Parse.expect m) :=
  isAt.after fun _ => .ite advance fail

theorem eatWord : Deepens o o' D (Parse.eatWord word) (Parse.eatWord word) :=
  note.after fun _ => peek.after fun _ => .ite (advance.after fun _ => pure) pure

theorem nextTag : Deepens o o' D Parse.nextTag Parse.nextTag := by
  refine note.after fun _ => peek.after fun l => ?_
  obtain ⟨token, location, text⟩ := l
  cases token with
  | tag name => exact advance.after fun _ => pure
  | _ => exact pure

end Tokens

theorem afterComma {p p' : Parse α} (h : Deepens o o' D p p') :
    Deepens o o' D (Parse.afterComma p) (Parse.afterComma p') :=
  eat.after fun _ => .ite (h.bind (fun _ => pure) fun _ _ _ => .pure trivial) pure

theorem commaSeparated {p p' : Parse α} (h : Deepens o o' D p p') (hg : D → Onward o' p') :
    Deepens o o' D (Parse.commaSeparated p) (Parse.commaSeparated p') := by
  have hmany : D → Onward o' (many (Parse.afterComma p')) := fun hD =>
    (hg hD).afterComma.manyUntil
  refine h.bind (fun _ => ?_) fun hD _ n => (hmany hD n).andThen fun _ => .pure trivial
  exact (manyUntil h.afterComma fun hD => (hg hD).afterComma).bind (fun _ => pure)
    fun _ _ _ => .pure trivial

section Values

variable (hl : o.locations = o'.locations)
include hl

theorem string : Deepens o o' D Parse.string Parse.string := by
  refine note.after fun _ => peek.after fun l => ?_
  obtain ⟨token, location, text⟩ := l
  cases token with
  | string value multiline => exact advance.after fun _ => (located hl).after fun _ => pure
  | _ => exact fail

theorem stringList : Deepens o o' D Parse.stringList Parse.stringList := by
  refine peek.after fun l => eat.after fun _ => .ite ?_ ?_
  · exact (commaSeparated (string hl) nofun).after fun _ => expect.after fun _ =>
      (span hl).after fun _ => pure
  · exact (string hl).after fun _ => (span hl).after fun _ => pure

omit hl in
theorem isAtString : Deepens o o' D Parse.isAtString Parse.isAtString := by
  refine peek.after fun l => ?_
  obtain ⟨token, location, text⟩ := l
  cases token <;> exact pure

omit hl in
theorem isAtStringList : Deepens o o' D Parse.isAtStringList Parse.isAtStringList := by
  refine note.after fun _ => note.after fun _ => peek.after fun l => ?_
  obtain ⟨token, location, text⟩ := l
  cases token <;> exact pure

theorem number : Deepens o o' D Parse.number Parse.number := by
  refine note.after fun _ => peek.after fun l => ?_
  obtain ⟨token, location, text⟩ := l
  cases token with
  | number value quantifier => exact advance.after fun _ => (located hl).after fun _ => pure
  | _ => exact fail

theorem chosen {ofWord? : String → Option α} {f : String → Location → Fault} :
    Deepens o o' D (Parse.chosen ofWord? f) (Parse.chosen ofWord? f) := by
  refine peek.after fun l => (string hl).after fun s => ?_
  cases ofWord? s.value with
  | none => exact refuse
  | some a => exact pure

theorem tagValue (kind : TagValueKind) :
    Deepens o o' D (Parse.tagValue kind) (Parse.tagValue kind) := by
  cases kind with
  | none => exact pure
  | string => exact (string hl).after fun _ => pure
  | strings => exact (stringList hl).after fun _ => pure
  | number => exact (number hl).after fun _ => pure
  | operator | importance => exact (chosen hl).after fun _ => pure

theorem tagStep (rules : List TagRule) (uses : TagUses) :
    Deepens o o' D (Parse.tagStep rules uses) (Parse.tagStep rules uses) := by
  refine nextTag.after fun r => ?_
  obtain _ | ⟨name, l⟩ := r
  · exact pure
  · dsimp only
    cases rules.find? (·.name == name) with
    | none => exact refuse
    | some rule =>
      exact .ite refuse ((tagValue hl rule.value).after fun value => .ite refuse pure)

theorem tags (rules : List TagRule) : Deepens o o' D (Parse.tags rules) (Parse.tags rules) :=
  iterate (tagStep hl rules) []

theorem flagArguments : Deepens o o' D Parse.flagArguments Parse.flagArguments := by
  refine note.after fun _ => isAtString.after fun _ => .ite ?_ ?_
  · exact (string hl).after fun _ => isAtStringList.after fun _ =>
      .ite ((stringList hl).after fun _ => pure) pure
  · exact (stringList hl).after fun _ => pure

end Values

end Deepens

end MailSieve
