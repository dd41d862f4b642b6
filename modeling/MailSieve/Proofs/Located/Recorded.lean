import MailSieve.Proofs.Lexing.Place
import MailSieve.Proofs.Reading.Script
import MailSieve.Proofs.Reading.Slot

/-! Where locations are recorded.
A node's location spans tokens of the source. `Places` says where readings stand and what is
therefore recorded for a node, `Gives` what holds of every result of a parser among such readings,
and that it reports a fault nowhere else. In the simplest case, a tree that was read has a location
at every node if locations were asked for, and at none otherwise. -/

namespace MailSieve

open Parse

/-- Locations stand at every node, or at none. -/
def TreeLaw.recorded (present : Bool) : TreeLaw where
  location l := l.isSome = present

/-- What a fault reports is the place and the text of one of the readings that `S` holds of. A value
outside a closed vocabulary is reported in place of the text that denotes it. -/
def Fault.Cites (S : Reading → Prop) : Fault → Prop
  | lexical m => S (.error m)
  | unexpected location found _ =>
    ∃ l, S (.ok l) ∧ location = l.location
      ∧ found = if l.token = .endOfInput then none else some l.found
  | tooDeep _ location found => ∃ l, S (.ok l) ∧ location = l.location ∧ found = l.found
  | unknownTag name location found _ | conflictingTag name location found =>
    ∃ l, S (.ok l) ∧ l.token = .tag name ∧ location = l.location ∧ found = l.found
  | badOperator value location | badImportance value location =>
    ∃ l multiline, S (.ok l) ∧ l.token = .string value multiline ∧ location = l.location
  | orphanBranch name location => ∃ l, S (.ok l) ∧ l.token = .word name ∧ location = l.location

theorem Fault.Cites.location {S : Reading → Prop} {f : Fault} (h : f.Cites S) :
    ∃ r, S r ∧ r.location = f.diagnostic.location := by
  cases f with
  | lexical m => exact ⟨.error m, h, rfl⟩
  | unexpected location found expected | tooDeep limit location found
  | orphanBranch name location =>
    obtain ⟨l, hl, h⟩ := h
    exact ⟨.ok l, hl, by simp_all [Fault.diagnostic, Reading.location, Diagnostic.unexpected,
      Diagnostic.grammatical]⟩
  | unknownTag name location found allowed | conflictingTag name location found =>
    obtain ⟨l, hl, -, rfl, -⟩ := h
    exact ⟨.ok l, hl, rfl⟩
  | badOperator value location | badImportance value location =>
    obtain ⟨l, -, hl, -, rfl⟩ := h
    exact ⟨.ok l, hl, rfl⟩

/-- Where readings stand, where nodes therefore begin and end, and what is recorded for them. -/
structure Places (o : ParseOptions) where
  reading : Reading → Prop
  opens : Position → Prop
  closes : Position → Prop
  location : Option Location → Prop
  start {l : Lexeme} (h : reading (.ok l)) : opens l.location.start
  stop {l : Lexeme} (h : reading (.ok l)) : closes l.location.stop
  records (l : Location) (start : opens l.start) (stop : closes l.stop) :
    location (if o.locations then some l else none)

namespace Places

variable {o : ParseOptions}

def spanned (place : Position → Prop) (location : Option Location → Prop)
    (records : ∀ l : Location, place l.start → place l.stop →
      location (if o.locations then some l else none)) : Places o where
  reading r := place r.location.start ∧ place r.location.stop
  opens := place
  closes := place
  location := location
  start h := h.1
  stop h := h.2
  records := records

variable (R : Places o)

def law : TreeLaw where
  location := R.location

/-- Every reading from the cursor on stands in its place. -/
structure Contains (c : Cursor) : Prop where
  remaining (r : Reading) : r ∈ c.remaining → R.reading r
  lastStop : R.closes c.lastStop

variable {R} {c d : Cursor}

theorem Contains.current (h : R.Contains c) : R.reading (.ok c.current) :=
  h.remaining (.ok c.current) List.mem_cons_self

theorem Contains.note (h : R.Contains c) (e : Expected) : R.Contains (c.note e) := by
  refine ⟨fun r hr => h.remaining r (by rwa [Cursor.remaining_note] at hr), ?_⟩
  rw [Cursor.note]
  split <;> exact h.lastStop

theorem Contains.next (h : R.Contains c) (hd : c.next = .ok d) : R.Contains d := by
  rw [Cursor.next] at hd
  split at hd
  · cases hd
    exact h
  · cases hd
  · next l more hc =>
    cases hd
    refine ⟨fun r hr => h.remaining r ?_, R.stop h.current⟩
    rw [Cursor.remaining, hc]
    exact List.mem_cons_of_mem _ hr

theorem Contains.next_fault {f : Fault} (h : R.Contains c) (hf : c.next = .error f) :
    f.Cites R.reading := by
  rw [Cursor.next] at hf
  split at hf
  · cases hf
  · next m more hc =>
    cases hf
    exact h.remaining (.error m) (by simp [Cursor.remaining, hc])
  · cases hf

end Places

/-- Among readings that stand in their places, whatever `p` results in satisfies `P`, and what it
reports stands in such a place. -/
structure Gives {o : ParseOptions} {α : Type} (R : Places o) (P : α → Prop) (p : Parse α) :
    Prop where
  result : ∀ {c a d}, R.Contains c → p o c = .ok (a, d) → P a ∧ R.Contains d
  fault : ∀ {c f}, R.Contains c → p o c = .error f → f.Cites R.reading

abbrev Anything {α : Type} : α → Prop := fun _ => True

namespace Gives

variable {α β : Type} {o : ParseOptions} {R : Places o} {P : α → Prop} {Q : β → Prop} {p : Parse α}

theorem pure {a : α} (h : P a) : Gives R P (Pure.pure a) where
  result := by
    rintro c b d hc ⟨⟩
    exact ⟨h, hc⟩
  fault := nofun

theorem bind {q : α → Parse β} (hp : Gives R P p) (hq : ∀ a, P a → Gives R Q (q a)) :
    Gives R Q (p >>= q) where
  result hc h := by
    obtain ⟨a, e, ha, hb⟩ := bind_ok.1 h
    obtain ⟨hP, he⟩ := hp.result hc ha
    exact (hq a hP).result he hb
  fault hc h := by
    obtain h | ⟨a, e, ha, hf⟩ := bind_error.1 h
    · exact hp.fault hc h
    · obtain ⟨hP, he⟩ := hp.result hc ha
      exact (hq a hP).fault he hf

theorem andThen {q : α → Parse β} (hp : Gives R P p) (hq : ∀ a, Gives R Q (q a)) :
    Gives R Q (p >>= q) := hp.bind fun a _ => hq a

theorem mono {P' : α → Prop} (hp : Gives R P p) (h : ∀ a, P a → P' a) : Gives R P' p :=
  ⟨fun hc hp' => (hp.result hc hp').imp_left (h _), hp.fault⟩

theorem refuse {f : Fault} (h : f.Cites R.reading) : Gives R P (throw f) where
  result _ h := (throw_ok.1 h).elim
  fault := by
    rintro c f hc ⟨⟩
    exact h

theorem fail : Gives R P Parse.fail where
  result _ h := (fail_ok.1 h).elim
  fault := by
    rintro c f hc ⟨⟩
    exact ⟨c.current, hc.current, rfl, rfl⟩

theorem tooDeep {l : Lexeme} (h : R.reading (.ok l)) : Gives R P (Parse.tooDeep l) where
  result := nofun
  fault := by
    rintro c f hc ⟨⟩
    exact ⟨l, h, rfl, rfl⟩

theorem ite {c : Prop} [Decidable c] {p' : Parse α} (h : Gives R P p) (h' : Gives R P p') :
    Gives R P (if c then p else p') := by
  by_cases hc : c
  · rwa [if_pos hc]
  · rwa [if_neg hc]

theorem loop {step : α → Parse (Option α)} (h : ∀ a, P a → Gives R (∀ b ∈ ·, P b) (step a))
    (ls : List Reading) {a : α} (ha : P a) : Gives R P (Parse.loop step ls a) := by
  induction ls generalizing a with
  | nil => exact .pure ha
  | cons _ more ih =>
    refine (h a ha).bind fun r hr => ?_
    cases r with
    | none => exact .pure ha
    | some b => exact ih (hr b rfl)

theorem iterate {step : α → Parse (Option α)} (h : ∀ a, P a → Gives R (∀ b ∈ ·, P b) (step a))
    {a : α} (ha : P a) : Gives R P (Parse.iterate step a) :=
  ⟨fun hc => (loop h _ ha).result hc, fun hc => (loop h _ ha).fault hc⟩

theorem collect {isLast : α → Bool} {item : Parse (Option α)} (h : Gives R (∀ b ∈ ·, P b) item)
    (ls : List Reading) : Gives R (∀ a ∈ ·, P a) (Parse.collect isLast item ls) := by
  induction ls with
  | nil => exact .pure (by simp)
  | cons _ more ih =>
    refine h.bind fun r hr => ?_
    cases r with
    | none => exact .pure (by simp)
    | some a =>
      have ha : P a := hr a rfl
      exact .ite (.pure (by simpa using ha))
        (ih.bind fun as has => .pure (List.forall_mem_cons.2 ⟨ha, has⟩))

theorem manyUntil {isLast : α → Bool} {item : Parse (Option α)}
    (h : Gives R (∀ b ∈ ·, P b) item) : Gives R (∀ a ∈ ·, P a) (Parse.manyUntil isLast item) :=
  ⟨fun hc => (collect h _).result hc, fun hc => (collect h _).fault hc⟩

theorem none : Gives R (∀ b ∈ ·, P b) (Pure.pure Option.none) := .pure (by simp)

theorem one {a : α} (h : P a) : Gives R (∀ b ∈ ·, P b) (Pure.pure (some a)) :=
  .pure (by simpa using h)

theorem some (h : Gives R P p) : Gives R (∀ b ∈ ·, P b) (p >>= fun a => Pure.pure (some a)) :=
  h.bind fun _ ha => one ha

section Tokens

variable {x : Expected} {m : Punctuation} {word : String}

theorem note : Gives R Anything (Parse.note x) where
  result := by
    rintro c a d hc ⟨⟩
    exact ⟨trivial, hc.note x⟩
  fault := nofun

theorem peek : Gives R (fun l => R.reading (.ok l)) Parse.peek where
  result := by
    rintro c a d hc ⟨⟩
    exact ⟨hc.current, hc⟩
  fault := nofun

theorem advance : Gives R (fun l => R.reading (.ok l)) Parse.advance where
  result hc h := by
    obtain ⟨hd, rfl⟩ := advance_ok.1 h
    exact ⟨hc.current, hc.next hd⟩
  fault {c f} hc h := by
    rw [Parse.advance] at h
    cases hd : c.next with
    | error e =>
      rw [hd] at h
      cases h
      exact hc.next_fault hd
    | ok d =>
      rw [hd] at h
      cases h

theorem options : Gives R Anything (read : Parse ParseOptions) where
  result := by
    rintro c a d hc ⟨⟩
    exact ⟨trivial, hc⟩
  fault := nofun

theorem isAt : Gives R Anything (Parse.isAt m) :=
  note.andThen fun _ => peek.andThen fun _ => pure trivial

theorem eat : Gives R Anything (Parse.eat m) :=
  isAt.andThen fun _ => .ite (advance.andThen fun _ => pure trivial) (pure trivial)

theorem expect : Gives R (fun l => R.reading (.ok l)) (Parse.expect m) :=
  isAt.andThen fun _ => .ite advance fail

theorem eatWord : Gives R Anything (Parse.eatWord word) :=
  note.andThen fun _ => peek.andThen fun _ =>
    .ite (advance.andThen fun _ => pure trivial) (pure trivial)

theorem nextTag :
    Gives R (∀ r ∈ ·, R.reading (.ok r.2) ∧ r.2.token = .tag r.1) Parse.nextTag := by
  refine note.andThen fun _ => peek.bind fun l hl => ?_
  obtain ⟨token, location, text⟩ := l
  cases token with
  | tag name => exact advance.andThen fun _ => one ⟨hl, rfl⟩
  | _ => exact none

theorem commaSeparated (h : Gives R P p) : Gives R (∀ a ∈ ·, P a) (Parse.commaSeparated p) := by
  have hitem : Gives R (∀ b ∈ ·, P b) (afterComma p) := eat.andThen fun _ => .ite h.some .none
  exact h.bind fun a ha => (manyUntil hitem).bind fun as has =>
    .pure (List.forall_mem_cons.2 ⟨ha, has⟩)

end Tokens

end Gives

section Tags

variable {L : TreeLaw}

def TagValue.Obeys (L : TreeLaw) : TagValue → Prop
  | string s => s.Obeys L
  | strings l => l.Obeys L
  | number n => n.Obeys L
  | none | operator _ | importance _ => True

namespace TagUses

def Obey (L : TreeLaw) (uses : TagUses) : Prop := ∀ u ∈ uses, u.value.Obeys L

variable {uses : TagUses} (h : uses.Obey L) (name : String)
include h

theorem Obey.value? {v : TagValue} (hv : uses.value? name = some v) : v.Obeys L := by
  obtain ⟨u, hu, rfl⟩ := Option.map_eq_some_iff.1 hv
  exact h u (List.mem_of_find?_eq_some hu)

theorem Obey.string? : ∀ s ∈ uses.string? name, s.Obeys L :=
  fun _ hs => h.value? name (string?_eq_some.1 hs)

theorem Obey.strings? : ∀ l ∈ uses.strings? name, l.Obeys L :=
  fun _ hl => h.value? name (strings?_eq_some.1 hl)

theorem Obey.number? : ∀ n ∈ uses.number? name, n.Obeys L :=
  fun _ hn => h.value? name (number?_eq_some.1 hn)

end TagUses

end Tags

namespace Gives

variable {o : ParseOptions} {R : Places o} {start : Position}

theorem located {l : Location} (hs : R.opens l.start) (he : R.closes l.stop) :
    Gives R R.location (Parse.located l) where
  result := by
    rintro c a d hc ⟨⟩
    exact ⟨R.records l hs he, hc⟩
  fault := nofun

theorem place {l : Lexeme} (h : R.reading (.ok l)) :
    Gives R R.location (Parse.located l.location) :=
  located (R.start h) (R.stop h)

theorem span (h : R.opens start) : Gives R R.location (Parse.span start) where
  result hc hl := (located (l := ⟨start, _⟩) h hc.lastStop).result hc hl
  fault := nofun

section Values

theorem string : Gives R (·.Obeys R.law) Parse.string := by
  refine note.andThen fun _ => peek.bind fun l hl => ?_
  obtain ⟨token, location, text⟩ := l
  cases token with
  | string value multiline =>
    exact advance.andThen fun _ => (place hl).bind fun _ hl => pure hl
  | _ => exact fail

theorem stringList : Gives R (·.Obeys R.law) Parse.stringList := by
  refine peek.bind fun l hl => eat.andThen fun _ => .ite ?_ ?_
  · exact (commaSeparated string).bind fun _ hv => expect.andThen fun _ =>
      (span (R.start hl)).bind fun _ hl => pure ⟨trivial, hl, hv⟩
  · exact string.bind fun _ hs => (span (R.start hl)).bind fun _ hl =>
      pure ⟨trivial, hl, by simpa using hs⟩

theorem isAtString : Gives R Anything Parse.isAtString := by
  refine peek.andThen fun l => ?_
  obtain ⟨token, location, text⟩ := l
  cases token <;> exact pure trivial

theorem isAtStringList : Gives R Anything Parse.isAtStringList := by
  refine note.andThen fun _ => note.andThen fun _ => peek.andThen fun l => ?_
  obtain ⟨token, location, text⟩ := l
  cases token <;> exact pure trivial

theorem number : Gives R (·.Obeys R.law) Parse.number := by
  refine note.andThen fun _ => peek.bind fun l hl => ?_
  obtain ⟨token, location, text⟩ := l
  cases token with
  | number value quantifier =>
    exact advance.andThen fun _ => (place hl).bind fun _ hl => pure ⟨trivial, hl⟩
  | _ => exact fail

theorem string_token {c d : Cursor} {s : StringLit} (h : Parse.string o c = .ok (s, d)) :
    c.current.token = .string s.value s.multiline := by
  simp only [Parse.string, bind_ok, note_ok, peek_ok] at h
  obtain ⟨_, _, rfl, l, _, ⟨hl, rfl⟩, h⟩ := h
  rw [Cursor.current_note] at hl
  obtain ⟨token, location, text⟩ := l
  cases token with
  | string value multiline =>
    obtain ⟨_, _, -, h⟩ := bind_ok.1 h
    obtain ⟨_, _, -, h⟩ := bind_ok.1 h
    obtain ⟨rfl, rfl⟩ := pure_ok.1 h
    rw [hl]
  | _ => cases h

theorem chosen {α : Type} {ofWord? : String → Option α} {f : String → Location → Fault}
    (hf : ∀ {l v multiline}, R.reading (.ok l) → l.token = .string v multiline →
      (f v l.location).Cites R.reading) :
    Gives R Anything (Parse.chosen ofWord? f) where
  result hc h := by
    refine ⟨trivial, ?_⟩
    obtain ⟨l, c, hl, h⟩ := bind_ok.1 h
    obtain ⟨rfl, rfl⟩ := peek_ok.1 hl
    obtain ⟨s, d, hs, h⟩ := bind_ok.1 h
    have hd := (string.result hc hs).2
    cases hw : ofWord? s.value with
    | none =>
      rw [hw] at h
      cases h
    | some a =>
      rw [hw] at h
      obtain ⟨-, rfl⟩ := pure_ok.1 h
      exact hd
  fault hc h := by
    obtain h | ⟨l, c, hl, h⟩ := bind_error.1 h
    · cases h
    · obtain ⟨rfl, rfl⟩ := peek_ok.1 hl
      obtain h | ⟨s, d, hs, h⟩ := bind_error.1 h
      · exact string.fault hc h
      · cases hw : ofWord? s.value with
        | none =>
          rw [hw] at h
          cases h
          exact hf hc.current (string_token hs)
        | some a =>
          rw [hw] at h
          cases h

theorem tagValue (kind : TagValueKind) : Gives R (·.Obeys R.law) (Parse.tagValue kind) := by
  cases kind with
  | none => exact pure trivial
  | string => exact string.bind fun _ hs => pure hs
  | strings => exact stringList.bind fun _ hl => pure hl
  | number => exact number.bind fun _ hn => pure hn
  | operator | importance =>
    have hcites {l v multiline} (hl : R.reading (.ok l)) (ht : l.token = .string v multiline) :
        ∃ l' m', R.reading (.ok l') ∧ l'.token = .string v m' ∧ l.location = l'.location :=
      ⟨l, multiline, hl, ht, rfl⟩
    exact (chosen hcites).andThen fun _ => pure trivial

theorem tagStep (rules : List TagRule) {uses : TagUses} (h : uses.Obey R.law) :
    Gives R (∀ b ∈ ·, TagUses.Obey R.law b) (Parse.tagStep rules uses) := by
  refine nextTag.bind fun r hr => ?_
  obtain _ | ⟨name, l⟩ := r
  · exact .none
  · obtain ⟨hl, htoken⟩ := hr _ rfl
    have hshown {found : String} (hfound : found = l.found) :
        ∃ k : Lexeme, R.reading (.ok k) ∧ k.token = .tag name ∧ l.location = k.location
          ∧ found = k.found := ⟨l, hl, htoken, rfl, hfound⟩
    dsimp only
    cases rules.find? (·.name == name) with
    | none => exact refuse (hshown rfl)
    | some rule =>
      refine .ite (refuse (hshown rfl)) ((tagValue rule.value).bind fun value hv => ?_)
      refine .ite (refuse (hshown rfl)) (pure ?_)
      rintro _ ⟨⟩
      exact List.forall_mem_append.2 ⟨h, by simpa using hv⟩

theorem tags (rules : List TagRule) : Gives R (TagUses.Obey R.law) (Parse.tags rules) :=
  iterate (fun _ => tagStep rules) (by simp [TagUses.Obey])

end Values

theorem matchOptions {uses : TagUses} (h : uses.Obey R.law) : uses.matchOptions.Obeys R.law :=
  ⟨trivial, h.string? _⟩

theorem transform {uses : TagUses} (h : uses.Obey R.law) :
    ∀ b ∈ uses.transform?, b.Obeys R.law := by
  intro b hb
  rw [TagUses.transform?] at hb
  split at hb
  · cases hb
    exact trivial
  · split at hb
    · cases hb
      exact trivial
    · obtain ⟨l, hl, rfl⟩ := Option.map_eq_some_iff.1 hb
      exact h.strings? _ l hl

section Tests

variable {inner : Parse Test}

theorem testList (ht : Gives R (·.Obeys R.law) inner) :
    Gives R (TestsObey R.law) (Parse.testList inner) :=
  expect.andThen fun _ => (commaSeparated ht).bind fun _ hts => expect.andThen fun _ =>
    pure (testsObey_iff.2 hts)

theorem argument (ht : Gives R (·.Obeys R.law) inner) :
    Gives R (∀ a ∈ ·, Argument.Obeys R.law a) (Parse.argument inner) := by
  refine note.andThen fun _ => note.andThen fun _ => note.andThen fun _ => note.andThen fun _ =>
    note.andThen fun _ => note.andThen fun _ => peek.bind fun l hl => ?_
  obtain ⟨token, location, text⟩ := l
  cases token with
  | tag name => exact advance.andThen fun _ => (place hl).bind fun _ hl => one ⟨trivial, hl⟩
  | number value quantifier => exact number.bind fun _ hn => one hn
  | string value multiline => exact string.bind fun _ hs => one hs
  | word name =>
    exact ht.bind fun _ ht => (span (R.start hl)).bind fun _ hl => one ⟨trivial, ⟨ht, trivial⟩, hl⟩
  | mark p =>
    cases p with
    | openBracket => exact stringList.bind fun _ hs => one hs
    | openParen =>
      exact (testList ht).bind fun _ hts => (span (R.start hl)).bind fun _ hl =>
        one ⟨trivial, hts, hl⟩
    | _ => exact none
  | endOfInput => exact none

theorem arguments (ht : Gives R (·.Obeys R.law) inner) :
    Gives R (ArgumentsObey R.law) (Parse.arguments inner) :=
  (manyUntil (argument ht)).mono fun _ => argumentsObey_iff.2

theorem keywordTest (hs : R.opens start) (ht : Gives R (·.Obeys R.law) inner) (k : TestKeyword) :
    Gives R (·.Obeys R.law) (Parse.keywordTest inner start k) := by
  cases k with
  | always | never => exact (span hs).bind fun _ hl => pure hl
  | negation => exact ht.bind fun _ ht => (span hs).bind fun _ hl => pure ⟨ht, hl⟩
  | allOf | anyOf =>
    exact (testList ht).bind fun _ hts => (span hs).bind fun _ hl => pure ⟨trivial, hts, hl⟩
  | address | envelope | header | string =>
    exact (tags _).bind fun _ hu => stringList.bind fun _ hh => stringList.bind fun _ hk =>
      (span hs).bind fun _ hl => pure ⟨matchOptions hu, hh, hk, hl⟩
  | headerExists | ihave =>
    exact stringList.bind fun _ hh => (span hs).bind fun _ hl => pure ⟨hh, hl⟩
  | size =>
    refine (tags _).andThen fun uses =>
      .ite (note.andThen fun _ => note.andThen fun _ => fail) ?_
    exact number.bind fun _ hn => (span hs).bind fun _ hl => pure ⟨hn, hl⟩
  | body =>
    exact (tags _).bind fun _ hu => stringList.bind fun _ hk => (span hs).bind fun _ hl =>
      pure ⟨transform hu, matchOptions hu, hk, hl⟩
  | date =>
    exact (tags _).bind fun _ hu => string.bind fun _ hh => string.bind fun _ hp =>
      stringList.bind fun _ hk => (span hs).bind fun _ hl =>
        pure ⟨trivial, hu.string? _, matchOptions hu, hh, hp, hk, hl⟩
  | currentDate =>
    exact (tags _).bind fun _ hu => string.bind fun _ hp => stringList.bind fun _ hk =>
      (span hs).bind fun _ hl => pure ⟨hu.string? _, matchOptions hu, hp, hk, hl⟩
  | hasFlag =>
    refine (tags _).bind fun _ hu => stringList.bind fun _ hf =>
      isAtStringList.andThen fun _ => .ite ?_ ?_
    · exact stringList.bind fun _ hk => (span hs).bind fun _ hl =>
        pure ⟨matchOptions hu, by simpa using hf, hk, hl⟩
    · exact (span hs).bind fun _ hl => pure ⟨matchOptions hu, by simp, hf, hl⟩
  | duplicate =>
    exact (tags _).bind fun _ hu => (span hs).bind fun _ hl =>
      pure ⟨trivial, hu.string? _, hu.string? _, hu.string? _, hu.number? _, hl⟩

theorem testWith (ht : Gives R (·.Obeys R.law) inner) :
    Gives R (·.Obeys R.law) (Parse.testWith inner) := by
  refine isAt.andThen fun _ => .ite ?_ (note.andThen fun _ => peek.bind fun l hl => ?_)
  · exact advance.andThen fun _ => ht.bind fun _ ht => expect.andThen fun _ => pure ht
  · obtain ⟨token, location, text⟩ := l
    cases token with
    | word name =>
      refine advance.andThen fun _ => ?_
      cases TestKeyword.ofWord? name with
      | some k => exact keywordTest (R.start hl) ht k
      | none =>
        exact (arguments ht).bind fun _ has => (span (R.start hl)).bind fun _ hl =>
          pure ⟨trivial, trivial, has, hl⟩
    | _ => exact fail

theorem test (room : Nat) : Gives R (·.Obeys R.law) (Parse.test room) := by
  induction room with
  | zero =>
    refine ⟨nofun, ?_⟩
    rintro c f hc ⟨⟩
    exact ⟨c.current, hc.current, rfl, rfl⟩
  | succ room ih => exact testWith ih

end Tests

section Commands

variable {inner : Parse Test} {block : Parse Block} {chain : Parse Chain}

theorem flagArguments :
    Gives R (fun r => (∀ s ∈ r.1, s.Obeys R.law) ∧ r.2.Obeys R.law) Parse.flagArguments := by
  refine note.andThen fun _ => isAtString.andThen fun _ => .ite ?_ ?_
  · refine string.bind fun s hs => isAtStringList.andThen fun _ => .ite ?_ ?_
    · exact stringList.bind fun _ hf => pure ⟨by simpa using hs, hf⟩
    · exact pure ⟨by simp, trivial, hs, by simpa using hs⟩
  · exact stringList.bind fun _ hf => pure ⟨by simp, hf⟩

theorem flagCommand (hs : R.opens start) {action : FlagAction} :
    Gives R (·.Obeys R.law) (Parse.flagCommand action start) :=
  flagArguments.bind fun _ hf => expect.andThen fun _ => (span hs).bind fun _ hl =>
    pure ⟨hf.1, hf.2, hl⟩

theorem genericCommand (hs : R.opens start) (ht : Gives R (·.Obeys R.law) inner)
    (hb : Gives R (·.Obeys R.law) block) {name : String} :
    Gives R (·.Obeys R.law) (Parse.genericCommand inner block name start) := by
  refine (arguments ht).bind fun _ has => isAt.andThen fun _ => .ite ?_ ?_
  · exact hb.bind fun _ hb => (span hs).bind fun _ hl => pure ⟨trivial, trivial, has, hb, hl⟩
  · exact expect.andThen fun _ => (span hs).bind fun _ hl => pure ⟨trivial, trivial, has, hl⟩

theorem keywordCommand (ht : Gives R (·.Obeys R.law) inner) (hb : Gives R (·.Obeys R.law) block)
    (hc : Gives R (·.Obeys R.law) chain) {l : Lexeme} (hl : R.reading (.ok l))
    {k : CommandKeyword} (hk : l.token = .word k.word) :
    Gives R (·.Obeys R.law) (Parse.keywordCommand inner block chain l k) := by
  have hs : R.opens l.location.start := R.start hl
  cases k with
  | require =>
    exact stringList.andThen fun _ => expect.andThen fun _ => (span hs).bind fun _ hl =>
      pure ⟨trivial, hl⟩
  | ifTest =>
    exact ht.bind fun _ ht => hb.bind fun _ hb => hc.bind fun _ hc => (span hs).bind fun _ hl =>
      pure ⟨ht, hb, hc, hl⟩
  | elsif | elseBlock => exact refuse ⟨l, hl, hk, rfl⟩
  | stop | discard => exact expect.andThen fun _ => (span hs).bind fun _ hl => pure hl
  | keep =>
    exact (tags _).bind fun _ hu => expect.andThen fun _ => (span hs).bind fun _ hl =>
      pure ⟨hu.strings? _, hl⟩
  | fileInto =>
    exact (tags _).bind fun _ hu => string.bind fun _ hm => expect.andThen fun _ =>
      (span hs).bind fun _ hl => pure ⟨hm, hu.strings? _, hl⟩
  | redirect =>
    exact (tags _).andThen fun _ => string.bind fun _ ha => expect.andThen fun _ =>
      (span hs).bind fun _ hl => pure ⟨ha, hl⟩
  | reject =>
    exact string.bind fun _ hr => expect.andThen fun _ => (span hs).bind fun _ hl =>
      pure ⟨hr, hl⟩
  | setVariable =>
    exact (tags _).andThen fun _ => string.bind fun _ hn => string.bind fun _ hv =>
      expect.andThen fun _ => (span hs).bind fun _ hl => pure ⟨hn, hv, hl⟩
  | vacation =>
    exact (tags _).bind fun _ hu => string.bind fun _ hr => expect.andThen fun _ =>
      (span hs).bind fun _ hl => pure ⟨trivial, hr, hu.number? _, hu.number? _, hu.string? _,
        hu.string? _, hu.strings? _, hu.string? _, hl⟩
  | setFlag | addFlag | removeFlag => exact flagCommand hs
  | notify =>
    exact (tags _).bind fun _ hu => string.bind fun _ hm => expect.andThen fun _ =>
      (span hs).bind fun _ hl =>
        pure ⟨hm, hu.string? _, hu.strings? _, hu.string? _, hl⟩

theorem commandWith (ht : Gives R (·.Obeys R.law) inner) (hb : Gives R (·.Obeys R.law) block)
    (hc : Gives R (·.Obeys R.law) chain) :
    Gives R (·.Obeys R.law) (Parse.commandWith inner block chain) := by
  refine note.andThen fun _ => peek.bind fun l hl => ?_
  obtain ⟨token, location, text⟩ := l
  cases token with
  | word name =>
    refine advance.andThen fun _ => ?_
    cases hk : CommandKeyword.ofWord? name with
    | some k =>
      exact keywordCommand ht hb hc hl
        (congrArg Token.word (Reads.ofWord_word (fun _ => rfl) hk).symm)
    | none => exact genericCommand (R.start hl) ht hb
  | _ => exact fail

theorem blockWith (hs : R.opens start) {command : Parse Command}
    (hc : Gives R (·.Obeys R.law) command) :
    Gives R (·.Obeys R.law) (Parse.blockWith command start) := by
  have hitem : Gives R (∀ c ∈ ·, Command.Obeys R.law c) (Parse.commandOrClose command) :=
    eat.andThen fun _ => .ite none hc.some
  exact (manyUntil hitem).bind fun _ hcs => (span hs).bind fun _ hl =>
    pure ⟨commandsObey_iff.2 hcs, hl⟩

theorem chainWith {elsif elseBlock : Lexeme → Parse Chain}
    (hi : ∀ l : Lexeme, R.reading (.ok l) → Gives R (·.Obeys R.law) (elsif l))
    (he : ∀ l : Lexeme, R.reading (.ok l) → Gives R (·.Obeys R.law) (elseBlock l)) :
    Gives R (·.Obeys R.law) (Parse.chainWith elsif elseBlock) :=
  peek.bind fun l hl => eatWord.andThen fun _ => .ite (hi l hl)
    (eatWord.andThen fun _ => .ite (he l hl) (pure trivial))

theorem block_chain (room : Nat) :
    Gives R (·.Obeys R.law) (Parse.block room) ∧ Gives R (·.Obeys R.law) (Parse.chain room) := by
  induction room with
  | zero =>
    exact ⟨expect.bind fun _ hl => tooDeep hl,
      chainWith (fun _ hl => tooDeep hl) fun _ hl => tooDeep hl⟩
  | succ room ih =>
    obtain ⟨hb, hc⟩ := ih
    refine ⟨expect.bind fun _ hl => blockWith (R.start hl) (commandWith (test room) hb hc),
      chainWith (fun l hl => ?_) fun l hl => ?_⟩
    · exact (test room).bind fun _ ht => hb.bind fun _ hb => hc.bind fun _ hc =>
        (span (R.start hl)).bind fun _ hl => pure ⟨ht, hb, hc, hl⟩
    · exact hb.bind fun _ hb => (span (R.start hl)).bind fun _ hl => pure ⟨hb, hl⟩

theorem command (room : Nat) : Gives R (·.Obeys R.law) (Parse.command room) :=
  commandWith (test room) (block_chain room).1 (block_chain room).2

theorem script (horigin : R.opens .origin) : Gives R (·.Obeys R.law) Parse.script := by
  refine options.andThen fun options => ?_
  have hitem : Gives R (∀ c ∈ ·, Command.Obeys R.law c)
      (Parse.commandOrEnd (Parse.command options.maxDepth)) :=
    note.andThen fun _ => peek.andThen fun _ => .ite none (command _).some
  exact (manyUntil hitem).bind fun _ hcs => peek.bind fun l hl =>
    have hstop : R.closes l.location.stop := R.stop hl
    (located (l := ⟨.origin, l.location.stop⟩) horigin hstop).bind fun _ hl =>
      pure ⟨commandsObey_iff.2 hcs, hl⟩

end Commands

end Gives

namespace Script

variable {o : ParseOptions} {source : String} {s : Script}

/-- What is recorded where the readings of a source stand holds throughout its tree. -/
theorem parse_placed {R : Places o} (horigin : R.opens .origin) (hclose : R.closes .origin)
    (hr : ∀ r ∈ readings source, R.reading r) (h : parse o source = .ok s) :
    s.Obeys R.law := by
  obtain ⟨c, d, hc, hs⟩ := parse_ok.1 h
  have hremaining : c.remaining = readings source :=
    Cursor.ofReadings_remaining (readings_ne_nil source) hc
  have hcontains : R.Contains c := by
    refine ⟨fun r hr' => hr r (hremaining ▸ hr'), ?_⟩
    rwa [Cursor.ofReadings_lastStop hc]
  exact ((Gives.script horigin).result hcontains hs).1

/-- Locations are recorded everywhere or nowhere, as asked. -/
theorem parse_recorded (h : parse o source = .ok s) : s.Obeys (.recorded o.locations) :=
  let R : Places o := .spanned (fun _ => True) (·.isSome = o.locations) fun _ _ _ => by
    cases o.locations <;> rfl
  parse_placed (R := R) trivial trivial (fun _ _ => ⟨trivial, trivial⟩) h

end Script

end MailSieve
