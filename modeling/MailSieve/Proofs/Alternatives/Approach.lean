import MailSieve.Grammar.Value
import MailSieve.Proofs.Alternatives.Kind
import MailSieve.Proofs.Lookahead.Tracks

/-! Ways to a token that is left open.
An `Approach` is a cursor on its way to such a token: the tokens before it are known, and so is what
has been noted. An `Outcome` is how far a parser gets from there without passing over the open
token. It is the same for all tokens that none of the alternatives noted in the end stands for,
wherever the known tokens stand; every other token the parser passes over. -/

namespace MailSieve

open Parse Expected

namespace Cursor

def noteAll (c : Cursor) (es : List Expected) : Cursor := es.foldl Cursor.note c

variable {c : Cursor} {es : List Expected}

theorem ahead_note (c : Cursor) (e : Expected) : (c.note e).ahead = c.ahead := by
  rw [note]
  split <;> rfl

theorem note_note (c : Cursor) (e : Expected) : (c.note e).note e = c.note e := by
  refine if_pos ?_
  rw [note]
  split <;> simp_all

theorem current_noteAll : (c.noteAll es).current = c.current := by
  induction es generalizing c with
  | nil => rfl
  | cons e es ih => exact ih.trans (c.current_note e)

theorem ahead_noteAll : (c.noteAll es).ahead = c.ahead := by
  induction es generalizing c with
  | nil => rfl
  | cons e es ih => exact ih.trans (c.ahead_note e)

theorem remaining_noteAll : (c.noteAll es).remaining = c.remaining := by
  rw [remaining, current_noteAll, ahead_noteAll, remaining]

theorem noted_noteAll : (c.noteAll es).noted = Expected.noteAll c.noted es := by
  induction es generalizing c with
  | nil => rfl
  | cons e es ih =>
    change ((c.note e).noteAll es).noted = _
    rw [ih, note, Expected.noteAll, Expected.noteAll, List.foldl_cons]
    split <;> rfl

end Cursor

def Lexeme.missing (l : Lexeme) (es : List Expected) : Fault :=
  .unexpected l.location (if l.token = .endOfInput then none else some l.found) es

/-- The tokens before the open one, and what has been noted. -/
structure Approach where
  before : List Token
  noted : List Expected

namespace Approach

/-- The cursor has the known tokens before `l`, and `tail` behind it. -/
structure Meets (A : Approach) (l : Lexeme) (tail : List Reading) (c : Cursor) : Prop where
  way : ∃ ls : List Lexeme, ls.map (·.token) = A.before ∧ (∀ x ∈ ls, x.location ≠ l.location)
    ∧ c.remaining = ls.map .ok ++ .ok l :: tail
  noted : c.noted = A.noted

/-- The token is still ahead, or none of the alternatives noted at it stands for it. -/
def Open (A : Approach) (l : Lexeme) : Prop := A.before = [] → ¬ Allowed A.noted l.token

def Holds (A : Approach) (I : List Expected → Prop) : Prop := A.before = [] → I A.noted

/-- The second approach is as near on the same way. At the open token it has noted what the first
has, and the end of the input only if the first has. -/
structure Leads (A B : Approach) : Prop where
  before : B.before <:+ A.before
  noted : A.before = [] → A.noted ⊆ B.noted
  ends : B.before = [] → endOfInput ∈ B.noted → A.before = [] ∧ endOfInput ∈ A.noted

def noteAll (A : Approach) (es : List Expected) : Approach :=
  { A with noted := Expected.noteAll A.noted es }

variable {A B C : Approach} {l : Lexeme} {tail : List Reading} {c : Cursor} {es : List Expected}
variable {t : Token} {ts : List Token} {I J : List Expected → Prop}

theorem Leads.refl : A.Leads A := ⟨List.suffix_refl _, fun _ _ h => h, fun h h' => ⟨h, h'⟩⟩

theorem Leads.length_le (h : A.Leads B) : B.before.length ≤ A.before.length := h.before.length_le

theorem Leads.nil (h : A.Leads B) (hA : A.before = []) : B.before = [] :=
  List.suffix_nil.1 (hA ▸ h.before)

theorem Leads.trans (h : A.Leads B) (h' : B.Leads C) : A.Leads C where
  before := h'.before.trans h.before
  noted hA := List.Subset.trans (h.noted hA) (h'.noted (h.nil hA))
  ends hC he := by
    obtain ⟨hB, he⟩ := h'.ends hC he
    exact h.ends hB he

theorem not_open : ¬ A.Open l ↔ A.before = [] ∧ Allowed A.noted l.token := by
  rw [Open, Classical.not_imp, Classical.not_not]

theorem Leads.open (h : A.Leads B) (hB : B.Open l) : A.Open l := fun hA ha =>
  hB (h.nil hA) (ha.mono (h.noted hA))

theorem leads_noteAll (hend : endOfInput ∉ es) : A.Leads (A.noteAll es) where
  before := List.suffix_refl _
  noted _ _ he := mem_noteAll.2 (.inl he)
  ends h he := ⟨h, (mem_noteAll.1 he).resolve_right hend⟩

theorem Leads.of_noteAll (h : (A.noteAll es).Leads B) (hA : A.before ≠ []) : A.Leads B where
  before := h.before
  noted h := absurd h hA
  ends hB he := absurd (h.ends hB he).1 hA

theorem open_noteAll :
    (A.noteAll es).Open l ↔ A.Open l ∧ (A.before = [] → ¬ Allowed es l.token) := by
  simp only [Open, noteAll, allowed_noteAll, not_or, forall_and]

theorem Holds.mono (h : A.Holds I) (hI : ∀ es, I es → J es) : A.Holds J := fun hA => hI _ (h hA)

theorem Meets.noteAll (h : A.Meets l tail c) : (A.noteAll es).Meets l tail (c.noteAll es) where
  way := by
    rw [Cursor.remaining_noteAll]
    exact h.way
  noted := by
    rw [Cursor.noted_noteAll, h.noted]
    rfl

theorem Meets.here (h : A.Meets l tail c) (hA : A.before = []) :
    c.current = l ∧ c.ahead = tail := by
  obtain ⟨ls, hls, -, hc⟩ := h.way
  rw [hA, List.map_eq_nil_iff] at hls
  rw [hls] at hc
  injection hc with hl ht
  exact ⟨Except.ok.inj hl, ht⟩

theorem Meets.length_lt (h : A.Meets l tail c) : A.before.length < c.remaining.length := by
  obtain ⟨ls, hls, -, hc⟩ := h.way
  rw [hc, ← hls]
  simp

theorem Meets.next (h : A.Meets l tail c) (hA : A.before = t :: ts) :
    c.current.token = t ∧ c.current.location ≠ l.location
      ∧ ∃ d, c.next = .ok d ∧ (Approach.mk ts []).Meets l tail d := by
  obtain ⟨ls, hls, hne, hc⟩ := h.way
  obtain ⟨x, ls, rfl⟩ : ∃ x ks, ls = x :: ks := by
    cases ls with
    | nil => simp [hA] at hls
    | cons x ks => exact ⟨x, ks, rfl⟩
  rw [hA, List.map_cons, List.cons.injEq] at hls
  injection hc with hx hahead
  cases Except.ok.inj hx
  refine ⟨hls.1, hne _ List.mem_cons_self, ?_⟩
  have hway : ∀ x ∈ ls, x.location ≠ l.location := fun x hx => hne x (List.mem_cons_of_mem _ hx)
  rw [Cursor.next, hahead]
  cases ls with
  | nil => exact ⟨_, rfl, ⟨[], hls.2, hway, rfl⟩, rfl⟩
  | cons y ls => exact ⟨_, rfl, ⟨y :: ls, hls.2, hway, rfl⟩, rfl⟩

end Approach

/-- With a misreading behind the open token, the parser moves on to it. -/
def Halts {α : Type} (o : ParseOptions) (p : Parse α) (A : Approach) (l : Lexeme) : Prop :=
  ∀ {m : Misreading} {more : List Reading} {c : Cursor}, A.Meets l (.error m :: more) c →
    p o c = .error (.lexical m)

/-- Why there is no result: nothing noted stands at the open token, or another cause. -/
inductive Refusal where
  | missing
  | other

/-- How far a parser gets without passing over the open token, and its result there. -/
structure Outcome (α : Type) where
  upTo : Approach
  result : Except Refusal α

namespace Outcome

variable {α β : Type}

/-- The run has this outcome, with `l` as the open token. -/
def Is (w : Outcome α) (l : Lexeme) (tail : List Reading) (r : Except Fault (α × Cursor)) : Prop :=
  match w.result with
  | .ok a => ∃ d, r = .ok (a, d) ∧ w.upTo.Meets l tail d
  | .error .missing => r = .error (l.missing w.upTo.noted)
  | .error .other => ∃ f, r = .error f ∧ ∀ found es, f ≠ .unexpected l.location found es

/-- The parser has this outcome for every token that no noted alternative stands for, and passes
over any other. -/
structure Of (o : ParseOptions) (p : Parse α) (A : Approach) (w : Outcome α) : Prop where
  run : ∀ {l tail c}, A.Meets l tail c → w.upTo.Open l → w.Is l tail (p o c)
  halts : ∀ {l}, A.Open l → ¬ w.upTo.Open l → Halts o p A l

/-- Where `M` holds of the result a token has been passed over, and what has been noted at the open
token obeys `R`. A report has the kinds of all tokens it has an alternative for. -/
structure Fits (A : Approach) (R : α → List Expected → Prop) (M : α → Prop) (w : Outcome α) :
    Prop where
  leads : A.Leads w.upTo
  result : ∀ {a}, w.result = .ok a → w.upTo.Holds (R a)
  moves : ∀ {a}, w.result = .ok a → M a → w.upTo.before.length < A.before.length
  missing : w.result = .error .missing → w.upTo.before = [] ∧ Rounded w.upTo.noted

variable {o : ParseOptions} {A B : Approach} {p : Parse α} {q : α → Parse β} {a : α}

theorem Of.then {w : Outcome β} (hp : Of o p A ⟨B, .ok a⟩) (hq : Of o (q a) B w)
    (hB : B.Leads w.upTo) : Of o (p >>= q) A w where
  run {l tail c} hc hl := by
    obtain ⟨d, hpd, hd⟩ := hp.run hc (hB.open hl)
    rw [bind_run, hpd]
    exact hq.run hd hl
  halts {l} hA hl m more c hc := by
    by_cases hBl : B.Open l
    · obtain ⟨d, hpd, hd⟩ := hp.run hc hBl
      rw [bind_run, hpd]
      exact hq.halts hBl hl hd
    · rw [bind_run, hp.halts hA hBl hc]
      rfl

theorem Is.bind {r : Refusal} {l : Lexeme} {tail : List Reading} {c : Cursor}
    (h : (Outcome.mk B (.error r) : Outcome α).Is l tail (p o c)) :
    (Outcome.mk B (.error r) : Outcome β).Is l tail ((p >>= q) o c) := by
  cases r with
  | missing =>
    rw [bind_run, show p o c = _ from h]
    rfl
  | other =>
    obtain ⟨f, hf, hne⟩ := h
    exact ⟨f, by rw [bind_run, hf]; rfl, hne⟩

theorem Of.stuck {r : Refusal} (hp : Of o p A ⟨B, .error r⟩) :
    Of o (p >>= q) A ⟨B, .error r⟩ where
  run hc hl := (hp.run hc hl).bind
  halts hA hl _ _ _ hc := by
    rw [bind_run, hp.halts hA hl hc]
    rfl

end Outcome

theorem Parse.isAt_run {o : ParseOptions} {c : Cursor} {m : Punctuation} : Parse.isAt m o c
    = .ok (decide (c.current.token = .mark m), c.note (.literal (String.singleton m.char))) :=
  isAt_ok.2 ⟨rfl, rfl⟩

def Parse.noting {α : Type} (es : List Expected) (p : Parse α) : Parse α :=
  es.foldr (fun e p => note e >>= fun _ => p) p

theorem Parse.noting_run {α : Type} {o : ParseOptions} {c : Cursor} (es : List Expected)
    (p : Parse α) : noting es p o c = p o (c.noteAll es) := by
  induction es generalizing c with
  | nil => rfl
  | cons e es ih => exact ih

theorem Parse.look_run {α : Type} {o : ParseOptions} {c : Cursor} (es : List Expected)
    (q : Lexeme → Parse α) : noting es (Parse.peek >>= q) o c = q c.current o (c.noteAll es) := by
  have hcurrent : (c.noteAll es).current = c.current := Cursor.current_noteAll
  rw [noting_run, ← hcurrent]
  rfl

def HaltsAt {α : Type} (o : ParseOptions) (t : Token) (p : Parse α) : Prop :=
  ∀ (c : Cursor) (m : Misreading) (more : List Reading), c.current.token = t →
    c.ahead = .error m :: more → p o c = .error (.lexical m)

namespace HaltsAt

variable {α β : Type} {o : ParseOptions} {t : Token} {p : Parse α}

theorem bind {q : α → Parse β} (h : HaltsAt o t p) : HaltsAt o t (p >>= q) := by
  intro c m more hc hm
  rw [bind_run, h c m more hc hm]
  rfl

theorem noteThen {e : Expected} (h : HaltsAt o t p) :
    HaltsAt o t (Parse.note e >>= fun _ => p) := fun c m more hc hm =>
  h (c.note e) m more ((congrArg _ (c.current_note e)).trans hc) ((c.ahead_note e).trans hm)

theorem peekThen {q : Lexeme → Parse α} (h : ∀ l, l.token = t → HaltsAt o t (q l)) :
    HaltsAt o t (Parse.peek >>= q) := fun c m more hc hm =>
  h _ hc c m more hc hm

theorem advance : HaltsAt o t Parse.advance := by
  intro c m more _ hm
  rw [Parse.advance, Cursor.next, hm]
  rfl

theorem isAtThen {m : Punctuation} {q : Bool → Parse α} (h : HaltsAt o (.mark m) (q true)) :
    HaltsAt o (.mark m) (Parse.isAt m >>= q) := by
  intro c x more hc hx
  rw [bind_run, isAt_run, decide_eq_true hc]
  exact h _ x more ((congrArg _ (c.current_note _)).trans hc) ((c.ahead_note _).trans hx)

theorem isAtElse {m : Punctuation} {q : Bool → Parse α} (hm : t ≠ .mark m)
    (h : HaltsAt o t (q false)) : HaltsAt o t (Parse.isAt m >>= q) := by
  intro c x more hc hx
  rw [bind_run, isAt_run, decide_eq_false (hc ▸ hm)]
  exact h _ x more ((congrArg _ (c.current_note _)).trans hc) ((c.ahead_note _).trans hx)

theorem eat {m : Punctuation} : HaltsAt o (.mark m) (Parse.eat m) := isAtThen advance.bind

theorem expect {m : Punctuation} : HaltsAt o (.mark m) (Parse.expect m) := isAtThen advance

theorem string {value : String} {multiline : Bool} :
    HaltsAt o (.string value multiline) Parse.string := by
  refine noteThen (peekThen fun l hl => ?_)
  obtain ⟨token, location, text⟩ := l
  cases hl
  exact advance.bind

end HaltsAt

end MailSieve
