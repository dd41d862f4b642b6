import MailSieve.Proofs.Lexing.TextBlock
import MailSieve.Proofs.Reading.Script

/-! Texts and their tokens.
`Lexed` says which tokens a text is read as, wherever it stands. Blanks before a token do not count,
and a token is read back from its spelling unless what follows goes on with it. -/

namespace MailSieve

open Trivia

/-- The tokens of a text up to its end. -/
inductive Lexed : List Char → List Token → Prop where
  | stop {cs : List Char} : (scan cs).outcome = .ok .endOfInput → Lexed cs []
  | step {cs : List Char} {t : Token} {ts : List Token} :
    (scan cs).outcome = .ok t → t ≠ .endOfInput → Lexed (scan cs).rest ts → Lexed cs (t :: ts)

section Readings

variable {p : Position} {cs : List Char} {ts : List Token}

theorem atEnd_iff {s : Scan} : s.atEnd = true ↔ s.outcome = .ok .endOfInput := by
  rw [Scan.atEnd]
  split <;> simp_all

theorem not_atEnd {s : Scan} {t : Token} (h : s.outcome = .ok t) (hne : t ≠ .endOfInput) :
    ¬ s.atEnd = true := by
  rw [atEnd_iff, h]
  exact fun he => hne (Except.ok.inj he)

theorem reading_ok {s : Scan} {l : Lexeme} (h : s.reading p = .ok l) : s.outcome = .ok l.token := by
  rw [Scan.reading] at h
  split at h
  · next t ht =>
    cases h
    exact ht
  · cases h

theorem reading_of_outcome {s : Scan} {t : Token} (h : s.outcome = .ok t) :
    ∃ l, s.reading p = .ok l ∧ l.token = t := by
  rw [Scan.reading, h]
  exact ⟨_, rfl, rfl⟩

theorem lexed_iff : Lexed cs ts ↔ ∃ ls : List Lexeme, readingsFrom p cs = ls.map .ok
    ∧ ls.map (·.token) = ts ++ [.endOfInput] := by
  constructor
  · intro h
    induction h generalizing p with
    | stop ht =>
      obtain ⟨l, hl, hlt⟩ := reading_of_outcome (p := p) ht
      exact ⟨[l], by rw [readingsFrom_atEnd (atEnd_iff.2 ht), hl]; rfl, by simp [hlt]⟩
    | @step cs t ts ht hne _ ih =>
      obtain ⟨l, hl, hlt⟩ := reading_of_outcome (p := p) ht
      obtain ⟨ls, hls, hts⟩ := ih (p := ((scan cs).locate p).stop)
      exact ⟨l :: ls, by rw [readingsFrom_more (not_atEnd ht hne), hl, hls]; rfl,
        by simp [hlt, hts]⟩
  · induction hn : cs.length using Nat.strongRecOn generalizing p cs ts with
    | ind n ih =>
      rintro ⟨ls, hls, hts⟩
      by_cases h : (scan cs).atEnd = true
      · rw [readingsFrom_atEnd h] at hls
        obtain ⟨l, rfl⟩ : ∃ l, ls = [l] := List.length_eq_one_iff.1 (by
          simpa using (congrArg List.length hls).symm)
        have hnil : ts = [] := by simpa using (congrArg List.length hts).symm
        subst hnil
        exact .stop (atEnd_iff.1 h)
      · rw [readingsFrom_more h] at hls
        obtain ⟨l, ls, rfl⟩ := List.exists_cons_of_ne_nil (l := ls) (by rintro rfl; cases hls)
        obtain ⟨hl, hls⟩ := List.cons.inj hls
        have hout := reading_ok hl
        rw [List.map_cons] at hts
        cases ts with
        | nil => exact absurd (atEnd_iff.2 ((List.cons.inj hts).1 ▸ hout)) h
        | cons t ts =>
          obtain ⟨rfl, hts'⟩ := List.cons.inj hts
          refine .step hout (fun he => h (atEnd_iff.2 (he ▸ hout))) ?_
          exact ih _ (hn ▸ rest_length_lt h) rfl ⟨ls, hls, hts'⟩

theorem lexes_iff {source : String} : Lexes source ts ↔ Lexed source.toList ts := lexed_iff.symm

end Readings

section Blanks

variable {cs : List Char} {ts : List Token} {c : Char}

theorem skipTrivia_blank (h : isBlank c = true) :
    skipTrivia (c :: cs) = push c (skipTrivia cs) := by
  have hne : ∀ ds, c = '/' → cs = '*' :: ds → False := by
    rintro _ rfl
    cases h
  rw [skipTrivia.eq_3 c cs hne, if_pos h]

theorem scan_blank (h : isBlank c = true) :
    (scan (c :: cs)).outcome = (scan cs).outcome ∧ (scan (c :: cs)).rest = (scan cs).rest := by
  rw [scan, skipTrivia_blank h]
  exact ⟨rfl, rfl⟩

theorem Lexed.blank (h : Lexed cs ts) (hc : isBlank c = true) : Lexed (c :: cs) ts := by
  obtain ⟨ho, hr⟩ := @scan_blank cs c hc
  cases h with
  | stop h => exact .stop (ho.trans h)
  | step h hne ht => exact .step (ho.trans h) hne (hr ▸ ht)

theorem Lexed.blanks (h : Lexed cs ts) {bs : List Char} (hb : ∀ c ∈ bs, isBlank c = true) :
    Lexed (bs ++ cs) ts := by
  induction bs with
  | nil => exact h
  | cons b bs ih =>
    rw [List.forall_mem_cons] at hb
    exact (ih hb.2).blank hb.1

def startsToken (c : Char) : Bool := !isBlank c && c != '#' && c != '/'

theorem skipTrivia_token (h : startsToken c = true) : skipTrivia (c :: cs) = ([], c :: cs) := by
  simp only [startsToken, Bool.and_eq_true, Bool.not_eq_true', bne_iff_ne] at h
  obtain ⟨⟨hb, hh⟩, hs⟩ := h
  rw [skipTrivia.eq_3 c cs (fun _ hc => absurd hc hs), if_neg (by simp [hb]), if_neg hh]

theorem scan_token (h : startsToken c = true) : scan (c :: cs) = scanToken (c :: cs) := by
  rw [scan, skipTrivia_token h]
  rfl

end Blanks

end MailSieve
