import MailSieve.Proofs.Lexing.Follow
import MailSieve.Proofs.Lexing.Place

/-! The order in which a source is read.
Every token is at least one character long, so what is read behind it begins later. The end of the
input is read last, and before it only tokens that a text can denote. -/

namespace MailSieve

section Order

variable {p : Position} {cs : List Char} {t : Token}

theorem scan_text_ne_nil (h : (scan cs).outcome = .ok t) (hne : t ≠ .endOfInput) :
    (scan cs).text ≠ [] := by
  obtain ⟨c, text, htext, -⟩ := scanToken_text_starts h hne
  exact htext ▸ List.cons_ne_nil c text

theorem scanToken_end (h : (scanToken cs).outcome = .ok .endOfInput) : cs = [] := by
  cases cs with
  | nil => rfl
  | cons c cs => cases tokenAt_of_outcome h

theorem scan_end (h : (scan cs).atEnd = true) : (scan cs).text = [] ∧ (scan cs).rest = [] := by
  have hout : (scanToken (Trivia.skipTrivia cs).2).outcome = .ok .endOfInput := atEnd_iff.1 h
  have hnil := scanToken_end hout
  rw [scan, hnil]
  exact ⟨rfl, rfl⟩

theorem Position.offset_lt_after (p : Position) (hne : cs ≠ []) :
    p.offset < (p.after cs).offset := by
  obtain ⟨c, cs, rfl⟩ := List.exists_cons_of_ne_nil hne
  have hc := c.utf8Size_pos
  have hle := Position.offset_le_after (p.next c) cs
  rw [Position.offset_next] at hle
  rw [Position.after_cons]
  omega

theorem reading_forward {l : Lexeme} (h : (scan cs).reading p = .ok l)
    (hne : l.token ≠ .endOfInput) : l.location.start.offset < l.location.stop.offset := by
  rw [location_of_reading h]
  exact Position.offset_lt_after _ (scan_text_ne_nil (reading_ok h) hne)

/-- What is read behind a token begins behind the start of that token. -/
theorem readingsFrom_strict (p : Position) (cs : List Char) : (readingsFrom p cs).Pairwise
    fun r r' => ∀ l, r = .ok l → l.location.start.offset < r'.location.start.offset := by
  fun_induction readingsFrom p cs with
  | case1 => exact List.pairwise_singleton _ _
  | case2 p cs s hmore ih =>
    refine List.pairwise_cons.2 ⟨fun r hr l hl => ?_, ih⟩
    have hforward := reading_forward hl fun he => hmore (atEnd_iff.2 (he ▸ reading_ok hl))
    have hstart := readingsFrom_start_le hr
    rw [← location_of_reading hl] at hstart
    omega

theorem readingsFrom_spelled {l : Lexeme} (h : .ok l ∈ readingsFrom p cs)
    (hne : l.token ≠ .endOfInput) : l.token.Spelled := by
  have hscan {p : Position} {cs : List Char} (h : (scan cs).reading p = .ok l) :
      l.token.Spelled := by
    have hout : (scan cs).outcome = .ok l.token := reading_ok h
    have hout' : (scanToken (Trivia.skipTrivia cs).2).outcome = .ok l.token := hout
    exact scanToken_spelled hout' hne
  fun_induction readingsFrom p cs with
  | case1 p cs s hend => exact hscan (List.mem_singleton.1 h).symm
  | case2 p cs s hmore ih =>
    obtain h | h := List.mem_cons.1 h
    · exact hscan h.symm
    · exact ih h

end Order

section Readings

variable {source : String} {ls : List Lexeme} {l : Lexeme} {tail : List Reading}

theorem readings_around (h : readings source = ls.map .ok ++ .ok l :: tail) :
    (∀ x ∈ ls, x.location.start.offset < l.location.start.offset)
      ∧ ∀ r ∈ tail, l.location.start.offset < r.location.start.offset := by
  have hpair := readingsFrom_strict .origin source.toList
  rw [← readings, h, List.pairwise_append, List.pairwise_cons] at hpair
  obtain ⟨-, ⟨htail, -⟩, hls⟩ := hpair
  exact ⟨fun x hx => hls _ (List.mem_map_of_mem hx) _ List.mem_cons_self x rfl,
    fun r hr => htail r hr l rfl⟩

theorem readingsFrom_not_end {p : Position} {cs : List Char} {r : Reading}
    (h : readingsFrom p cs = ls.map .ok ++ r :: tail) : ∀ x ∈ ls, x.token ≠ .endOfInput := by
  obtain ⟨before, e, he, -, hbefore⟩ := readingsFrom_eq p cs
  intro x hx
  refine hbefore x ?_
  have hdrop := congrArg List.dropLast (h.symm.trans he)
  rw [List.dropLast_append_of_ne_nil (List.cons_ne_nil _ _), List.dropLast_concat] at hdrop
  rw [← hdrop]
  exact List.mem_append_left _ (List.mem_map_of_mem hx)

theorem readings_not_end (h : readings source = ls.map .ok ++ .ok l :: tail) :
    ∀ x ∈ ls, x.token ≠ .endOfInput := readingsFrom_not_end h

theorem readings_tail_ne_nil (h : readings source = ls.map .ok ++ .ok l :: tail)
    (hl : l.token ≠ .endOfInput) : tail ≠ [] := by
  rintro rfl
  obtain ⟨before, e, he, hend, -⟩ := readingsFrom_eq .origin source.toList
  obtain ⟨-, hle⟩ := List.append_inj' (h.symm.trans he) rfl
  cases hle
  exact hl hend

end Readings

end MailSieve
