import MailSieve.Proofs.Reading.Command
import MailSieve.Proofs.Phrase.Levels
import MailSieve.Grammar.Script

/-! Scripts are read exactly as the grammar says.
A source lexes as some tokens if every reading of it is a token and these are the tokens up to the
end of the input, which stands last and nowhere else. The parser without locations accepts a source
if and only if it lexes as a script phrase within the limit, and no tokens are phrases for two
trees, whatever the limits. -/

namespace MailSieve

open Parse Phrase

/-- The tokens of a source up to its end. -/
def Lexes (source : String) (ts : List Token) : Prop :=
  ∃ ls : List Lexeme, readings source = ls.map .ok ∧ ls.map (·.token) = ts ++ [.endOfInput]

section Readings

variable {p : Position} {cs : List Char}

theorem readingsFrom_atEnd (h : (scan cs).atEnd = true) :
    readingsFrom p cs = [(scan cs).reading p] := by
  rw [readingsFrom, if_pos h]

theorem readingsFrom_more (h : ¬ (scan cs).atEnd = true) :
    readingsFrom p cs
      = (scan cs).reading p :: readingsFrom ((scan cs).locate p).stop (scan cs).rest := by
  rw [readingsFrom, if_neg h]

theorem reading_of_readingsFrom {r : Reading} {more : List Reading}
    (h : readingsFrom p cs = r :: more) : (scan cs).reading p = r := by
  by_cases hend : (scan cs).atEnd = true
  · rw [readingsFrom_atEnd hend] at h
    exact (List.cons.inj h).1
  · rw [readingsFrom_more hend] at h
    exact (List.cons.inj h).1

theorem readings_ne_nil (source : String) : readings source ≠ [] := by
  rw [readings, readingsFrom]
  split <;> exact List.cons_ne_nil _ _

theorem lexemes_inj {ls ms : List Lexeme} (h : ls.map (.ok : Lexeme → Reading) = ms.map .ok) :
    ls = ms := by
  have hok : ∀ l m : Lexeme, (.ok l : Reading) = .ok m → l = m := fun _ _ he => Except.ok.inj he
  exact (List.map_inj_right hok).1 h

theorem reading_endOfInput {s : Scan} :
    (∃ l, s.reading p = .ok l ∧ l.token = .endOfInput) ↔ s.atEnd = true := by
  rw [Scan.reading, Scan.atEnd]
  cases s.outcome with
  | error f => simp
  | ok t => cases t <;> simp

theorem readingsFrom_eq (p : Position) (cs : List Char) :
    ∃ (before : List Reading) (l : Lexeme), readingsFrom p cs = before ++ [.ok l]
      ∧ l.token = .endOfInput ∧ ∀ m : Lexeme, .ok m ∈ before → m.token ≠ .endOfInput := by
  induction hn : cs.length using Nat.strongRecOn generalizing p cs with
  | ind n ih =>
    by_cases h : (scan cs).atEnd = true
    · obtain ⟨l, hl, ht⟩ := (reading_endOfInput (p := p)).2 h
      exact ⟨[], l, by rw [readingsFrom_atEnd h, hl, List.nil_append], ht, by simp⟩
    · obtain ⟨before, l, hb, ht, hm⟩ := ih (scan cs).rest.length (hn ▸ rest_length_lt h)
        ((scan cs).locate p).stop (scan cs).rest rfl
      refine ⟨(scan cs).reading p :: before, l, by rw [readingsFrom_more h, hb]; rfl, ht, ?_⟩
      intro m hmem hme
      obtain he | hmem := List.mem_cons.1 hmem
      · exact h (reading_endOfInput.1 ⟨m, he.symm, hme⟩)
      · exact hm m hmem hme

end Readings

namespace Reads

variable {o : ParseOptions} {command : Parse Command} {G : List Token → Command → Prop}

theorem commandOrEnd (hc : Reads o command G fun _ => NoLink)
    (hG : ∀ {ts c}, G ts c → ∃ name us, ts = .word name :: us ∧ NoLink (.word name)) :
    Reads o (commandOrEnd command) (CommandOr [] G)
      (fun r t => if r.isSome then NoLink t else t = .endOfInput) := by
  have finish : Reads o (pure none) (fun ts r => ts = [] ∧ r = (none : Option Command))
      (fun r t => if r.isSome then NoLink t else t = .endOfInput) :=
    (result none).follow fun _ _ => trivial
  have go : Reads o (command >>= fun c => pure (some c)) (fun ts r => ∃ c, G ts c ∧ r = some c)
      (fun r t => if r.isSome then NoLink t else t = .endOfInput) := by
    refine (hc.map some).follow ?_
    rintro _ _ t ⟨c, -, rfl⟩ ht
    exact ht
  refine noteThen (peekBy (H := fun tok ts r => if tok = .endOfInput then ts = [] ∧ r = none
    else ∃ c, G ts c ∧ r = some c) (fun l => ?_) ?_ ?_)
  · by_cases ht : l.token = .endOfInput
    · simpa [ht] using at_token finish _
    · simpa [ht] using at_token go _
  · intro tok ts r u _ h
    split at h
    · obtain ⟨rfl, rfl⟩ := h
      rfl
    · obtain ⟨c, hg, rfl⟩ := h
      exact hg
  · intro ts r t h ht
    cases r with
    | none =>
      cases h
      exact (if_pos ht).mpr ⟨rfl, rfl⟩
    | some c =>
      obtain ⟨name, us, rfl, -⟩ := hG h
      exact ⟨c, h, rfl⟩

theorem commands (ho : o.locations = false) (n : Nat) :
    Reads o (many (Parse.commandOrEnd (Parse.command n)))
      (Repeated (fun _ => false) (CommandOr [] (CommandPhrase n)))
      (fun _ t => t = .endOfInput) := by
  refine (commandOrEnd (command ho n) commandForm_starts).manyUntil ?_ ?_ ?_ ?_
  · intro ts c hg
    obtain ⟨name, us, rfl, -⟩ := commandForm_starts hg
    simp
  · exact fun _ ht => ht
  · exact fun _ h => nomatch h
  · rintro ts us c cs t - - hr rfl
    exact noLink_next commandForm_starts hr ⟨nofun, nofun⟩

theorem commands_ended (ho : o.locations = false) {n : Nat} {c d : Cursor} {cs : List Command}
    (hc : c.Ended)
    (h : many (Parse.commandOrEnd (Parse.command n)) o c = .ok (cs, d)) :
    d.current.token = .endOfInput := by
  obtain ⟨e, he⟩ := (commandOrEnd (command ho n) commandForm_starts).many_declines
    (by
      intro ts c hg
      obtain ⟨name, us, rfl, -⟩ := commandForm_starts hg
      simp) hc h
  obtain ⟨_, _, hn, he⟩ := bind_ok.1 he
  obtain rfl := note_ok.1 hn
  obtain ⟨l, _, hl, he⟩ := bind_ok.1 he
  obtain ⟨rfl, rfl⟩ := peek_ok.1 hl
  split at he
  · next ht =>
    obtain ⟨-, rfl⟩ := pure_ok.1 he
    exact ht
  · obtain ⟨c, f, -, he⟩ := bind_ok.1 he
    cases (pure_ok.1 he).1

end Reads

namespace Cursor

theorem ofReadings_remaining {rs : List Reading} {c : Cursor} (hne : rs ≠ [])
    (h : ofReadings rs = .ok c) : c.remaining = rs := by
  match rs with
  | [] => exact absurd rfl hne
  | .error m :: _ => cases h
  | .ok l :: ahead =>
    cases h
    rfl

theorem ofReadings_lastStop {rs : List Reading} {c : Cursor} (h : ofReadings rs = .ok c) :
    c.lastStop = .origin := by
  cases rs with
  | nil =>
    cases h
    rfl
  | cons r rs =>
    cases r with
    | error m => cases h
    | ok l =>
      cases h
      rfl

theorem ofReadings_ok (l : Lexeme) (ahead : List Reading) :
    ∃ c, ofReadings (.ok l :: ahead) = .ok c ∧ c.remaining = .ok l :: ahead :=
  ⟨_, rfl, rfl⟩

end Cursor

theorem Script.parse_ok {o : ParseOptions} {source : String} {s : Script} :
    Script.parse o source = .ok s ↔ ∃ c d, Cursor.ofReadings (readings source) = .ok c
      ∧ Parse.script o c = .ok (s, d) := by
  rw [Script.parse]
  cases Cursor.ofReadings (readings source) with
  | error f => simp [bind, Except.bind]
  | ok c =>
    cases h : Parse.script o c with
    | error f => simp [bind, Except.bind, h]
    | ok r =>
      obtain ⟨s', d⟩ := r
      simp [bind, Except.bind, h, pure, Except.pure]

theorem Parse.script_run {o : ParseOptions} {c : Cursor} : Parse.script o c
    = (many (Parse.commandOrEnd (Parse.command o.maxDepth)) >>= fun cs => peek >>= fun l =>
      located ⟨.origin, l.location.stop⟩ >>= fun x => pure (Script.mk cs x)) o c := by
  rw [script, bind_run]
  rfl

theorem Parse.script_ok {o : ParseOptions} (ho : o.locations = false) {c d : Cursor} {s : Script} :
    Parse.script o c = .ok (s, d) ↔ ∃ cs,
      many (Parse.commandOrEnd (Parse.command o.maxDepth)) o c = .ok (cs, d) ∧ s = ⟨cs, none⟩ := by
  have hread {a : ParseOptions} {e : Cursor} : (read : Parse ParseOptions) o c = .ok (a, e)
      ↔ o = a ∧ c = e := pure_ok (o := o)
  rw [Parse.script, bind_ok]
  constructor
  · rintro ⟨_, _, hr, h⟩
    obtain ⟨rfl, rfl⟩ := hread.1 hr
    obtain ⟨cs, e, hcs, h⟩ := bind_ok.1 h
    obtain ⟨l, _, hl, h⟩ := bind_ok.1 h
    obtain ⟨rfl, rfl⟩ := peek_ok.1 hl
    rw [bind_run, located, ho] at h
    obtain ⟨rfl, rfl⟩ := pure_ok.1 h
    exact ⟨cs, hcs, rfl⟩
  · rintro ⟨cs, hcs, rfl⟩
    refine ⟨o, c, hread.2 ⟨rfl, rfl⟩, bind_ok.2 ⟨cs, d, hcs, bind_ok.2 ⟨_, d, peek_ok.2 ⟨rfl, rfl⟩,
      ?_⟩⟩⟩
    rw [bind_run, located, ho]
    rfl

/-- The parser accepts the phrases of the grammar, and nothing else. -/
theorem Script.parse_iff {o : ParseOptions} (ho : o.locations = false) {source : String}
    {s : Script} :
    Script.parse o source = .ok s ↔ ∃ ts, Lexes source ts ∧ ScriptPhrase o.maxDepth ts s := by
  rw [Script.parse_ok]
  constructor
  · rintro ⟨c, d, hc, hs⟩
    obtain ⟨cs, hcs, rfl⟩ := (Parse.script_ok ho).1 hs
    obtain ⟨before, l, hr, hl, hb⟩ := readingsFrom_eq .origin source.toList
    have hrem : c.remaining = before ++ [.ok l] :=
      (Cursor.ofReadings_remaining (by rw [readings, hr]; simp) hc).trans hr
    have hended : c.Ended := ⟨l, by rw [hrem]; simp, hl⟩
    obtain ⟨ts, ⟨ls, hls, rfl⟩, hrep⟩ := (Reads.commands ho o.maxDepth).sound hended hcs
    have hend := Reads.commands_ended ho hended hcs
    obtain ⟨us, hus, hseq⟩ := Reads.repeated_command.1 hrep
    rw [List.append_nil] at hus
    rw [hrem, Cursor.remaining] at hls
    have hahead : d.ahead = [] := by
      obtain hnil | ⟨ahead, r, hcon⟩ := List.eq_nil_or_concat d.ahead
      · exact hnil
      · rw [hcon, List.concat_eq_append, ← List.cons_append, ← List.append_assoc] at hls
        have hbefore := List.append_inj_left' hls rfl
        exact absurd hend (hb d.current (by rw [hbefore]; simp))
    refine ⟨_, ⟨ls ++ [d.current], ?_, ?_⟩, .mk (hus ▸ hseq)⟩
    · rw [readings, hr, hls, hahead]
      simp
    · simp [hend]
  · rintro ⟨ts, ⟨ls, hls, hts⟩, hseq⟩
    obtain ⟨hseq⟩ := hseq
    obtain ⟨l, ls, rfl⟩ := List.exists_cons_of_ne_nil (l := ls) (by rintro rfl; simp at hts)
    obtain ⟨c, hc, hrem⟩ := Cursor.ofReadings_ok l (ls.map .ok)
    have hshows : c.Shows (ts ++ .endOfInput :: []) := ⟨l :: ls, hrem, hts⟩
    obtain ⟨d, hd, -⟩ := (Reads.commands ho o.maxDepth).complete
      (Reads.repeated_command.2 ⟨ts, (List.append_nil ts).symm, hseq⟩) rfl hshows
    exact ⟨c, d, by rw [hls]; exact hc, (Parse.script_ok ho).2 ⟨_, hd, rfl⟩⟩

section Unambiguous

theorem Cursor.exists_shows {ts : List Token} (h : ts ≠ []) : ∃ c : Cursor, c.Shows ts := by
  obtain ⟨t, ts, rfl⟩ := List.exists_cons_of_ne_nil h
  let lexeme (t : Token) : Lexeme := ⟨t, ⟨.origin, .origin⟩, []⟩
  refine ⟨⟨lexeme t, ts.map fun u => .ok (lexeme u), .origin, []⟩, (t :: ts).map lexeme, ?_, ?_⟩
  · simp [Cursor.remaining, Function.comp_def]
  · simp [lexeme, Function.comp_def]

/-- A phrase is read in one way only, wherever it ends. -/
theorem Reads.unique {α : Type} {o : ParseOptions} {p : Parse α} {G : List Token → α → Prop}
    {F : α → Token → Prop} (h : Reads o p G F) {ts us xs ys : List Token} {a b : α} {t u : Token}
    (ha : G ts a) (hb : G us b) (hfa : F a t) (hfb : F b u)
    (he : ts ++ t :: xs = us ++ u :: ys) : a = b ∧ ts = us := by
  have hne : ts ++ t :: xs ≠ [] := by simp
  obtain ⟨c, hc⟩ := Cursor.exists_shows hne
  obtain ⟨d, hd, hds⟩ := h.complete ha hfa hc
  obtain ⟨e, hp, hes⟩ := h.complete hb hfb (he ▸ hc)
  cases hd.symm.trans hp
  have hrest : t :: xs = u :: ys := by
    obtain ⟨ls, hls, hlt⟩ := hds
    obtain ⟨ms, hms, hmt⟩ := hes
    have hlm : ls = ms := lexemes_inj (hls.symm.trans hms)
    rw [← hlt, ← hmt, hlm]
  rw [hrest] at he
  exact ⟨rfl, List.append_cancel_right he⟩

theorem scriptPhrase_unique {m n : Nat} {ts : List Token} {s s' : Script}
    (h : ScriptPhrase m ts s) (h' : ScriptPhrase n ts s') : s = s' := by
  obtain ⟨hs⟩ := scriptPhrase_mono (Nat.le_max_left m n) h
  obtain ⟨hs'⟩ := scriptPhrase_mono (Nat.le_max_right m n) h'
  have hr := Reads.repeated_command.2 ⟨ts, (List.append_nil ts).symm, hs⟩
  have hr' := Reads.repeated_command.2 ⟨ts, (List.append_nil ts).symm, hs'⟩
  have hc := Reads.commands (o := ⟨false, 0⟩) rfl (max m n)
  have he : ts ++ [Token.endOfInput] = ts ++ [.endOfInput] := rfl
  rw [(hc.unique hr hr' rfl rfl he).1]

end Unambiguous

theorem Lexes.unique {source : String} {ts us : List Token} (h : Lexes source ts)
    (k : Lexes source us) : ts = us := by
  obtain ⟨ls, hls, hts⟩ := h
  obtain ⟨ms, hms, hus⟩ := k
  have hlm : ls = ms := lexemes_inj (hls.symm.trans hms)
  rw [hlm] at hts
  exact List.append_cancel_right (hts.symm.trans hus)

/-- The parser accepts exactly its grammar, which is unambiguous. -/
theorem Script.parse_iff_derives (source : String) (limit : Nat) (s : Script) :
    (Script.parse ⟨false, limit⟩ source = .ok s
        ↔ ∃ ts, Lexes source ts ∧ ScriptPhrase limit ts s)
      ∧ (∀ ts us, Lexes source ts → Lexes source us → ts = us)
      ∧ ∀ ts m n t u, ScriptPhrase m ts t → ScriptPhrase n ts u → t = u :=
  ⟨Script.parse_iff rfl, fun _ _ h k => h.unique k, fun _ _ _ _ _ h k => scriptPhrase_unique h k⟩

end MailSieve
