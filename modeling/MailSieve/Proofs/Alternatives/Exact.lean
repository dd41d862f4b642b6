import MailSieve.Proofs.Alternatives.Script
import MailSieve.Proofs.Canonical.Legible
import MailSieve.Proofs.Lexing.Order
import MailSieve.Proofs.Located.Script
import MailSieve.Proofs.Lookahead.Precedence

/-! The alternatives of a report are exactly what could stand at its place.
A source is compared with all sources that have the same tokens before the place of its report. If
one of them is read past its own token there, the report of the first has the kind of that token;
and for every alternative of the report some source is read past such a token. -/

namespace MailSieve

open Parse Expected

section Spelling

variable {text rest : List Char} {t : Token} {ts : List Token}

theorem Spells.blank (h : Spells text t rest) : Spells (' ' :: text) t rest := by
  obtain ⟨hout, hrest⟩ := @scan_blank (text ++ rest) ' ' rfl
  exact ⟨hout.trans h.1, hrest.trans h.2⟩

theorem Spells.readings (h : Spells text t rest) (hne : t ≠ .endOfInput) (p : Position) :
    ∃ (l : Lexeme) (q : Position), l.token = t
      ∧ readingsFrom p (text ++ rest) = .ok l :: readingsFrom q rest := by
  obtain ⟨l, hl, ht⟩ := reading_of_outcome (p := p) h.1
  exact ⟨l, _, ht, by rw [readingsFrom_more (not_atEnd h.1 hne), hl, h.2]⟩

def spellTokens (ts : List Token) (rest : List Char) : List Char :=
  ts.foldr (fun t cs => ' ' :: t.pieces.flatMap Layout.standard.renderPiece ++ cs) rest

theorem bounded_spellTokens (h : Bounded rest) : Bounded (spellTokens ts rest) := by
  cases ts with
  | nil => exact h
  | cons t ts =>
    rintro c ⟨⟩
    exact ⟨rfl, by decide⟩

theorem readings_spellTokens (hts : ∀ t ∈ ts, t.Spelled) (hr : Bounded rest) (p : Position) :
    ∃ (ls : List Lexeme) (q : Position), ls.map (·.token) = ts
      ∧ readingsFrom p (spellTokens ts rest) = ls.map .ok ++ readingsFrom q rest := by
  induction ts generalizing p with
  | nil => exact ⟨[], p, rfl, rfl⟩
  | cons t ts ih =>
    obtain ⟨ht, hts⟩ := List.forall_mem_cons.1 hts
    have hne : t ≠ .endOfInput := by
      rintro rfl
      exact ht
    have hbounded : Bounded (spellTokens ts rest) := bounded_spellTokens hr
    have hspells := Layout.spells_pieces Layout.standard_plain ht fun _ => hbounded
    obtain ⟨l, q, hl, hreadings⟩ := hspells.blank.readings hne p
    obtain ⟨ls, q, rfl, hls⟩ := ih hts q
    exact ⟨l :: ls, q, by rw [List.map_cons, hl], hreadings.trans (congrArg _ hls)⟩

theorem readings_at_sign (p : Position) :
    ∃ (m : Misreading) (more : List Reading), readingsFrom p [' ', '@'] = .error m :: more := by
  have hout : (scan [' ', '@']).outcome = .error (.unexpectedCharacter '@') := by decide +kernel
  have hmore : ¬ (scan [' ', '@']).atEnd = true := by
    rw [atEnd_iff, hout]
    exact fun h => by cases h
  rw [readingsFrom_more hmore, Scan.reading, hout]
  exact ⟨_, _, rfl⟩

end Spelling

namespace Cursor

variable {ls : List Lexeme} {l : Lexeme} {tail tail' : List Reading}

def start (ls : List Lexeme) (l : Lexeme) (tail : List Reading) : Cursor :=
  match ls with
  | [] => ⟨l, tail, .origin, []⟩
  | x :: ls => ⟨x, ls.map .ok ++ .ok l :: tail, .origin, []⟩

theorem ofReadings_start : ofReadings (ls.map .ok ++ .ok l :: tail) = .ok (start ls l tail) := by
  cases ls <;> rfl

theorem start_remaining : (start ls l tail).remaining = ls.map .ok ++ .ok l :: tail := by
  cases ls <;> rfl

theorem start_meets (h : ∀ x ∈ ls, x.location ≠ l.location) :
    (Approach.mk (ls.map (·.token)) []).Meets l tail (start ls l tail) where
  way := ⟨ls, rfl, h, start_remaining⟩
  noted := by cases ls <;> rfl

theorem start_parts : (start ls l tail).Parts tail tail' (start ls l tail') := by
  cases ls with
  | nil => exact ⟨[], rfl, rfl⟩
  | cons x ls => exact ⟨ls ++ [l], by simp [start], by simp [start]⟩

end Cursor

namespace Script

variable {o : ParseOptions} {source : String} {f : Fault} {ls : List Lexeme} {l : Lexeme}
variable {tail : List Reading} {B : Approach} {r : Refusal}

theorem script_error {c : Cursor} : Parse.script o c = .error f
    ↔ Parse.commands o.maxDepth c.remaining o c = .error f := by
  rw [Parse.script_run, bind_error, or_iff_left]
  · exact Iff.rfl
  · rintro ⟨cs, d, -, h⟩
    cases h

section Stuck

variable (hst : Stuck o o.maxDepth ⟨ls.map (·.token), []⟩ B r)
variable (h : readings source = ls.map .ok ++ .ok l :: tail)

include h in
theorem parse_start : parse o source = .error f
    ↔ Parse.commands o.maxDepth (Cursor.start ls l tail).remaining o (.start ls l tail)
      = .error f := by
  rw [← script_error, parse, h, Cursor.ofReadings_start]
  cases hr : Parse.script o (.start ls l tail) <;> simp [bind, Except.bind, pure, Except.pure, hr]

include h in
theorem start_apart : ∀ x ∈ ls, x.location ≠ l.location := fun x hx he =>
  Nat.lt_irrefl _ (he ▸ (readings_around h).1 x hx)

include h in
theorem start_meets :
    (Approach.mk (ls.map (·.token)) []).Meets l tail (Cursor.start ls l tail) :=
  Cursor.start_meets (start_apart h)

include hst h

theorem parse_stuck (hB : B.Open l) : ∃ f, parse o source = .error f
    ∧ (r = .missing → f = l.missing B.noted)
    ∧ (r = .other → ∀ found es, f ≠ .unexpected l.location found es) := by
  have hmeets := start_meets h
  have hrun := hst.run hmeets.length_lt hmeets hB
  cases r with
  | missing => exact ⟨_, (parse_start h).2 hrun, fun _ => rfl, nofun⟩
  | other =>
    obtain ⟨f, hf, hne⟩ := hrun
    exact ⟨f, (parse_start h).2 hf, nofun, fun _ => hne⟩

theorem parse_done (hB : ¬ B.Open l) (hl : l.token = .endOfInput) : parse o source ≠ .error f := by
  have hmeets := start_meets h
  obtain ⟨a, ha⟩ := hst.done hmeets.length_lt hmeets hB hl
  intro hf
  cases ha.symm.trans ((parse_start h).1 hf)

omit h in
/-- A misreading behind an alternative is what the reading goes on to. -/
theorem commands_halt {m : Misreading} (hB : ¬ B.Open l) (hl : l.token ≠ .endOfInput)
    (hls : ∀ x ∈ ls, x.location ≠ l.location) (more : List Reading) :
    Parse.commands o.maxDepth (Cursor.start ls l (.error m :: more)).remaining o
      (.start ls l (.error m :: more)) = .error (.lexical m) := by
  have hmeets : (Approach.mk (ls.map (·.token)) []).Meets l (.error m :: more) _ :=
    Cursor.start_meets hls
  exact hst.halts hmeets.length_lt (fun _ => allowed_nil) hB hl hmeets

theorem parse_behind (hB : ¬ B.Open l) (hf : parse o source = .error f) :
    f.From tail := by
  have hl : l.token ≠ .endOfInput := fun hl => parse_done hst h hB hl hf
  -- Any misreading will do: what stands in its place is compared with it.
  have hhalt := script_error.2 (commands_halt (m := ⟨.unclosedComment, l.location⟩) hst hB hl
    (start_apart h) [])
  exact ((Tracks.script.beside _ _).halts (readings_tail_ne_nil h hl) Cursor.start_parts
    (Nat.le_refl _) (Nat.le_refl _) hhalt).fault (script_error.2 ((parse_start h).1 hf))

end Stuck

/-- The tokens of the source before `l` are `ts`. -/
def Stands (source : String) (ts : List Token) (l : Lexeme) : Prop :=
  ∃ (ls : List Lexeme) (tail : List Reading),
    readings source = ls.map .ok ++ .ok l :: tail ∧ ls.map (·.token) = ts

/-- The source has the tokens `ts` and then `t`, and a report on it is about what stands behind. -/
def Passes (o : ParseOptions) (source : String) (ts : List Token) (t : Token) : Prop :=
  ∃ l, Stands source ts l ∧ l.token = t ∧ ∀ f, parse o source = .error f →
    l.location.start.offset < f.diagnostic.location.start.offset

section Exact

variable {ts : List Token} {t : Token} {e : Expected} {es : List Expected}
variable {location : Location} {found : Option String}

theorem unexpected_stuck (hl : o.locations = false)
    (h : readings source = ls.map .ok ++ .ok l :: tail) (hd : ls.length < o.maxDepth)
    (hf : parse o source = .error (.unexpected l.location found es)) :
    ∃ B, Stuck o o.maxDepth ⟨ls.map (·.token), []⟩ B .missing ∧ es = B.noted := by
  have hend : .endOfInput ∉ ls.map (·.token) := fun he => by
    obtain ⟨x, hx, he⟩ := List.mem_map.1 he
    exact readings_not_end h x hx he
  obtain ⟨B, r, hst⟩ := Stuck.exists_stuck (A := ⟨ls.map (·.token), []⟩) hl
    (by rwa [List.length_map]) (fun _ => loose_stable.nil) hend
  -- Had the reading passed over `l`, its report would be about what stands behind.
  have hB : B.Open l := by
    refine Classical.byContradiction fun hB => ?_
    obtain ⟨x, more, ⟨ks, hks⟩, hx⟩ := parse_behind hst h hB hf
    have hlt := (readings_around h).2 (.ok x) (by rw [hks]; simp)
    exact Nat.lt_irrefl _ (hx ▸ hlt)
  obtain ⟨f, hf', hmissing, hother⟩ := parse_stuck hst h hB
  cases hf'.symm.trans hf
  cases r with
  | missing =>
    refine ⟨B, hst, ?_⟩
    injection hmissing rfl
  | other => exact absurd rfl (hother rfl found es)

theorem Passes.kind_mem (hst : Stuck o o.maxDepth ⟨ts, []⟩ B .missing)
    (h : Passes o source ts t) : t.kind ∈ B.noted := by
  obtain ⟨l, ⟨ls, tail, hr, rfl⟩, rfl, hpass⟩ := h
  by_cases hB : B.Open l
  · obtain ⟨f, hf, hmissing, -⟩ := parse_stuck hst hr hB
    cases hmissing rfl
    exact absurd (hpass _ hf) (Nat.lt_irrefl _)
  · exact (hst.missing rfl).2.kind _ (Approach.not_open.1 hB).2

theorem passes_spelled (hst : Stuck o o.maxDepth ⟨ts, []⟩ B .missing)
    (hts : ∀ t ∈ ts, t.Spelled) (ht : t.Spelled) (hB : ∀ l : Lexeme, l.token = t → ¬ B.Open l) :
    ∃ source, Passes o source ts t := by
  have hall : ∀ u ∈ ts ++ [t], u.Spelled := by simpa [or_imp, forall_and] using ⟨hts, ht⟩
  have hbounded : Bounded [' ', '@'] := by
    rintro c ⟨⟩
    exact ⟨rfl, by decide⟩
  obtain ⟨ks, q, hks, hreadings⟩ := readings_spellTokens hall hbounded .origin
  obtain ⟨m, more, hm⟩ := readings_at_sign q
  obtain ⟨ls, xs, rfl, rfl, hxs⟩ := List.map_eq_append_iff.1 hks
  obtain ⟨l, rfl, rfl⟩ := List.map_eq_singleton_iff.1 hxs
  have hr : readings (String.ofList (spellTokens (ls.map (·.token) ++ [l.token]) [' ', '@']))
      = ls.map .ok ++ .ok l :: .error m :: more := by
    rw [readings, String.toList_ofList, hreadings, hm]
    simp
  have hne : l.token ≠ .endOfInput := fun he => by
    rw [he] at ht
    exact ht
  refine ⟨_, l, ⟨ls, _, hr, rfl⟩, rfl, fun f hf => ?_⟩
  have hhalt := (parse_start hr).2 (commands_halt hst (hB l rfl) hne (start_apart hr) more)
  cases hf.symm.trans hhalt
  exact (readings_around hr).2 _ List.mem_cons_self

theorem passes_end (hst : Stuck o o.maxDepth ⟨ts, []⟩ B .missing) (hts : ∀ t ∈ ts, t.Spelled)
    (hB : ∀ l : Lexeme, l.token = .endOfInput → ¬ B.Open l) :
    ∃ source, Passes o source ts .endOfInput := by
  have hbounded : Bounded [] := nofun
  obtain ⟨ls, q, rfl, hreadings⟩ := readings_spellTokens hts hbounded .origin
  obtain ⟨l, hl, hend⟩ := (reading_endOfInput (p := q) (s := scan [])).2 rfl
  have hr : readings (String.ofList (spellTokens (ls.map (·.token)) []))
      = ls.map .ok ++ .ok l :: [] := by
    rw [readings, String.toList_ofList, hreadings, readingsFrom_atEnd rfl, hl]
  exact ⟨_, l, ⟨ls, [], hr, rfl⟩, hend, fun f hf =>
    (parse_done hst hr (hB l hend) hend hf).elim⟩

theorem exists_passes (hst : Stuck o o.maxDepth ⟨ts, []⟩ B .missing) (hts : ∀ t ∈ ts, t.Spelled)
    (he : e ∈ B.noted) : ∃ source t, Passes o source ts t ∧ e.Covers t := by
  obtain ⟨hbefore, hrounded⟩ := hst.missing rfl
  obtain ⟨t, hcovers, ht⟩ := hrounded.means e he
  have hB (l : Lexeme) (hl : l.token = t) : ¬ B.Open l := fun h => h hbefore ⟨e, he, hl ▸ hcovers⟩
  obtain ht | rfl := ht
  · obtain ⟨source, h⟩ := passes_spelled hst hts ht hB
    exact ⟨source, t, h, hcovers⟩
  · obtain ⟨source, h⟩ := passes_end hst hts hB
    exact ⟨source, .endOfInput, h, hcovers⟩

theorem parse_error_bare :
    parse o source = .error f ↔ parse ⟨false, o.maxDepth⟩ source = .error f := by
  obtain ⟨locations, limit⟩ := o
  cases locations with
  | false => exact Iff.rfl
  | true =>
    rw [parse_erase]
    cases parse ⟨true, limit⟩ source <;> simp [Except.map]

theorem passes_bare : Passes o source ts t ↔ Passes ⟨false, o.maxDepth⟩ source ts t := by
  simp only [Passes, parse_error_bare (o := o)]

theorem Stands.spelled (h : Stands source ts l) : ∀ t ∈ ts, t.Spelled := by
  obtain ⟨ls, tail, hr, rfl⟩ := h
  intro t ht
  obtain ⟨x, hx, rfl⟩ := List.mem_map.1 ht
  have hmem : .ok x ∈ readings source := by
    rw [hr]
    exact List.mem_append_left _ (List.mem_map_of_mem hx)
  exact readingsFrom_spelled hmem (readings_not_end hr x hx)

/-- The report of a missing alternative has the kind of every token that could stand at its place,
and no alternative besides. The limit must be higher than the number of tokens before that place. -/
theorem expected_exact (h : parse o source = .error (.unexpected location found es)) :
    (∃ ts l, Stands source ts l ∧ l.location = location)
      ∧ ∀ ts l, Stands source ts l → l.location = location → ts.length < o.maxDepth →
        (∀ source' t, Passes o source' ts t →
          t.kind ∈ (Diagnostic.unexpected location found es).expected)
        ∧ ∀ e ∈ (Diagnostic.unexpected location found es).expected,
          ∃ source' t, Passes o source' ts t ∧ e.Covers t := by
  constructor
  · have hne : readings source ≠ [] := by
      rw [readings, readingsFrom]
      split <;> exact List.cons_ne_nil _ _
    obtain ⟨l, more, ⟨ls, hr⟩, hl⟩ := parse_fault rfl hne h
    exact ⟨_, l, ⟨ls, more, hr, rfl⟩, hl⟩
  · rintro ts l hl rfl hd
    obtain ⟨ls, tail, hr, rfl⟩ := id hl
    rw [List.length_map] at hd
    obtain ⟨B, hst, rfl⟩ := unexpected_stuck (o := ⟨false, o.maxDepth⟩) rfl hr hd
      (parse_error_bare.1 h)
    have hmem {e : Expected} :
        e ∈ (Diagnostic.unexpected l.location found B.noted).expected ↔ e ∈ B.noted := mem_arrange
    simp only [hmem, passes_bare (o := o)]
    exact ⟨fun source' t h => h.kind_mem hst, fun e he => exists_passes hst hl.spelled he⟩

/-- Behind a block the chain may go on, another command may follow, or the input may end. -/
theorem expected_exact_chain : ∃ location es,
    parse .standard "if true {} 42" = .error (.unexpected location (some "42") es)
      ∧ (∀ source' t, Passes .standard source'
          [.word "if", .word "true", .mark .openBrace, .mark .closeBrace] t →
        t.kind ∈ (Diagnostic.unexpected location (some "42") es).expected)
      ∧ ∀ e ∈ (Diagnostic.unexpected location (some "42") es).expected, ∃ source' t,
        Passes .standard source' [.word "if", .word "true", .mark .openBrace, .mark .closeBrace] t
          ∧ e.Covers t := by
  have hr : readings "if true {} 42" =
      [⟨.word "if", ⟨⟨0, 1, 1⟩, ⟨2, 1, 3⟩⟩, ['i', 'f']⟩,
        ⟨.word "true", ⟨⟨3, 1, 4⟩, ⟨7, 1, 8⟩⟩, ['t', 'r', 'u', 'e']⟩,
        ⟨.mark .openBrace, ⟨⟨8, 1, 9⟩, ⟨9, 1, 10⟩⟩, ['{']⟩,
        ⟨.mark .closeBrace, ⟨⟨9, 1, 10⟩, ⟨10, 1, 11⟩⟩, ['}']⟩].map .ok
      ++ .ok ⟨.number 42 none, ⟨⟨11, 1, 12⟩, ⟨13, 1, 14⟩⟩, ['4', '2']⟩
        :: [.ok ⟨.endOfInput, ⟨⟨13, 1, 14⟩, ⟨13, 1, 14⟩⟩, []⟩] := by decide +kernel
  have h : parse .standard "if true {} 42" = .error (.unexpected ⟨⟨11, 1, 12⟩, ⟨13, 1, 14⟩⟩
      (some "42") [.literal "elsif", .literal "else", .endOfInput, .tokenClass "identifier"]) := by
    decide +kernel
  exact ⟨_, _, h, (expected_exact h).2 _ _ ⟨_, _, hr, rfl⟩ rfl (by decide)⟩

end Exact

end Script

end MailSieve
