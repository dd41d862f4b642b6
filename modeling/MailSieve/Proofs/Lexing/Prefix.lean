import MailSieve.Proofs.Lexing.Follow
import MailSieve.Proofs.Lexing.Place

/-! The readings of a source up to a place where it is no token.
They are those of the whole source that stand before the place, and then either the end of the input
or another place that is no token: some reports point behind the beginning of what they report. -/

namespace MailSieve

open Trivia

section Steps

variable {cs ds : List Char} {t : Token}

theorem scan_follow (ht : (scan cs).outcome = .ok t) (hne : t ≠ .endOfInput)
    (h : Follows (scan cs).rest ds) (he : t.Ends (scan cs).rest ds) :
    scan ((scan cs).before ++ ((scan cs).text ++ ds)) = { scan cs with rest := ds } := by
  have hs : (scanToken (skipTrivia cs).2).outcome = .ok t := ht
  obtain ⟨hb, hfollow⟩ := scanToken_follow hs hne h he
  obtain ⟨c, text, hc, hstart⟩ := scanToken_text_starts hs hne
  have hskip : skipTrivia ((skipTrivia cs).1 ++ ((scanToken (skipTrivia cs).2).text ++ ds))
      = ((skipTrivia cs).1, (scanToken (skipTrivia cs).2).text ++ ds) := by
    refine skipTrivia_follow ?_ ?_
    · intro hnil
      rw [hnil] at hc
      cases hc
    · rw [hc]
      rintro _ ⟨⟩
      exact hstart
  have hbefore : (scan cs).before = (skipTrivia cs).1 := by
    change (skipTrivia cs).1 ++ (scanToken (skipTrivia cs).2).before = _
    rw [hb, List.append_nil]
  have hstep : scan ((skipTrivia cs).1 ++ ((scan cs).text ++ ds))
      = ⟨(skipTrivia cs).1 ++ (scanToken (skipTrivia cs).2).before,
        (scanToken (skipTrivia cs).2).text, (scanToken (skipTrivia cs).2).outcome, ds⟩ := by
    change scan ((skipTrivia cs).1 ++ ((scanToken (skipTrivia cs).2).text ++ ds)) = _
    rw [scan, hskip]
    dsimp only
    rw [hfollow]
  rw [hbefore, hstep]
  rfl

theorem scan_text_follow (ht : (scan cs).outcome = .ok t) (hne : t ≠ .endOfInput)
    (h : Follows (scan cs).rest ds) (he : t.Ends (scan cs).rest ds) :
    scan ((scan cs).text ++ ds) = ⟨[], (scan cs).text, .ok t, ds⟩ := by
  have hs : (scanToken (skipTrivia cs).2).outcome = .ok t := ht
  obtain ⟨hb, hfollow⟩ := scanToken_follow hs hne h he
  obtain ⟨c, text, hc, hstart⟩ := scanToken_text_starts hs hne
  have htext : (scan cs).text = c :: text := hc
  have hscan : scanToken ((scan cs).text ++ ds)
      = { scanToken (skipTrivia cs).2 with rest := ds } := hfollow
  rw [htext, List.cons_append] at hscan ⊢
  rw [scan_token hstart, hscan]
  dsimp only
  rw [hb, hs, hc]

theorem scanString_lead (hb : (scanString cs).before ≠ []) : ∃ lead,
    (scanString cs).before = '"' :: lead ∧ ∃ g, (scanString lead).outcome = .error g := by
  cases hr : Quoted.scanQuoted cs with
  | closed | unclosed =>
    rw [scanString, hr] at hb
    cases hb rfl
  | badEscape lead c rest =>
    obtain ⟨text, more, hl⟩ := scanQuoted_lead hr
    exact ⟨lead, by rw [scanString, hr], .unclosedString, by rw [scanString, hl]⟩

theorem scanTag_lead (hb : (scanTag cs).before ≠ []) : (scanTag cs).before = [':'] := by
  rw [scanTag.eq_def] at hb ⊢
  cases cs with
  | nil => rfl
  | cons c cs =>
    dsimp only at hb ⊢
    split at hb
    · cases hb rfl
    · next hc => rw [if_neg hc]

theorem scanWord_lead (hb : (scanWord cs).before ≠ []) : ∃ lead,
    (scanWord cs).before = 't' :: lead ∧ ∃ g, (scanWord ('t' :: lead)).outcome = .error g := by
  obtain hplain | ⟨rest, hd, hw, htext⟩ := scanWord_cases cs
  · rw [hplain] at hb
    cases hb rfl
  · rw [htext, scanTextBlockToken] at hb ⊢
    cases hr : TextBlock.scanTextBlock rest with
    | closed | unclosed =>
      rw [hr] at hb
      cases hb rfl
    | noBreak lead more =>
      obtain ⟨hpre, hagain⟩ := scanTextBlock_lead hr
      have hcolon : ∀ c ∈ (':' :: lead).head?, isWordPart c = false := by
        rintro c ⟨⟩
        rfl
      obtain ⟨htake, hdrop⟩ := takeWhile_follow cs hcolon
      refine ⟨'e' :: 'x' :: 't' :: ':' :: lead, by rw [hw]; rfl, .missingLineBreak, ?_⟩
      rw [hw] at htake hdrop
      change (scanWord (['t', 'e', 'x', 't'] ++ ':' :: lead)).outcome = _
      rw [scanWord_text hdrop htake, scanTextBlockToken, hagain]

/-- What is passed over before a place that is no token is the beginning of such a place again. -/
theorem scanToken_lead (hb : (scanToken cs).before ≠ []) :
    ∃ g, (scanToken (scanToken cs).before).outcome = .error g := by
  cases cs with
  | nil => cases hb rfl
  | cons c cs =>
    cases hp : Punctuation.ofChar? c with
    | some p =>
      rw [scanToken_mark hp] at hb
      cases hb rfl
    | none =>
      have hother := scanToken_other hp
      by_cases hq : c = '"'
      · simp only [hother, if_pos hq] at hb ⊢
        obtain ⟨lead, hlead, hg⟩ := scanString_lead hb
        rwa [hlead, ← hq, hother, if_pos hq]
      · by_cases hcolon : c = ':'
        · simp only [hother, if_neg hq, if_pos hcolon] at hb ⊢
          rw [scanTag_lead hb]
          exact ⟨.missingTagName, rfl⟩
        · by_cases hdigit : c.isDigit = true
          · simp only [hother, if_neg hq, if_neg hcolon, if_pos hdigit] at hb
            cases hb (scanNumber_before _)
          · by_cases hword : isWordStart c = true
            · simp only [hother, if_neg hq, if_neg hcolon, if_neg hdigit, if_pos hword] at hb ⊢
              obtain ⟨lead, hlead, hg⟩ := scanWord_lead hb
              rw [hlead]
              exact hg
            · simp only [hother, if_neg hq, if_neg hcolon, if_neg hdigit, if_neg hword] at hb
              split at hb <;> cases hb rfl

theorem scan_lead (cs : List Char) :
    scan (scan cs).before = ⟨(scan cs).before, [], .ok .endOfInput, []⟩
      ∨ ∃ g, (scan (scan cs).before).outcome = .error g := by
  have hcut : skipTrivia ((skipTrivia cs).1 ++ (scanToken (skipTrivia cs).2).before)
      = ((skipTrivia cs).1, (scanToken (skipTrivia cs).2).before) := by
    refine skipTrivia_follow ?_ (scanToken_before_starts _)
    intro hnil
    rw [hnil]
    rfl
  by_cases hb : (scanToken (skipTrivia cs).2).before = []
  · left
    have hbefore : (scan cs).before = (skipTrivia cs).1 := by
      change (skipTrivia cs).1 ++ (scanToken (skipTrivia cs).2).before = _
      rw [hb, List.append_nil]
    rw [hb, List.append_nil] at hcut
    rw [hbefore, scan, hcut]
    dsimp only
    rw [scanToken, List.append_nil]
  · right
    obtain ⟨g, hg⟩ := scanToken_lead hb
    refine ⟨g, ?_⟩
    change (scan ((skipTrivia cs).1 ++ (scanToken (skipTrivia cs).2).before)).outcome = _
    rw [scan, hcut]
    exact hg

end Steps

section Readings

variable {p : Position} {cs : List Char}

theorem readingsFrom_follow {l : Lexeme} {more : List Reading} {ds : List Char}
    (h : readingsFrom p cs = .ok l :: more) (hne : l.token ≠ .endOfInput)
    (hf : Follows (scan cs).rest ds) (he : l.token.Ends (scan cs).rest ds) :
    readingsFrom p ((scan cs).before ++ ((scan cs).text ++ ds))
      = .ok l :: readingsFrom l.location.stop ds := by
  obtain ⟨hout, hlocation⟩ := readingsFrom_head h
  have hscan := scan_follow hout hne hf he
  have hmore : ¬ (scan ((scan cs).before ++ ((scan cs).text ++ ds))).atEnd = true := by
    rw [hscan]
    exact not_atEnd hout hne
  rw [readingsFrom_more hmore, hscan, hlocation, ← reading_of_readingsFrom h]
  rfl

/-- The readings up to the first place that is no token. -/
theorem readingsFrom_lead {ls : List Lexeme} {m : Misreading} {more : List Reading}
    (h : readingsFrom p cs = ls.map .ok ++ .error m :: more) :
    ∃ lead rest tail, cs = lead ++ rest ∧ m.location.start = p.after lead
      ∧ readingsFrom p lead = ls.map .ok ++ tail
      ∧ (tail = [.ok ⟨.endOfInput, ⟨m.location.start, m.location.start⟩, []⟩]
        ∨ ∃ n more, tail = .error n :: more) := by
  induction ls generalizing p cs with
  | nil =>
    have hmore : ¬ (scan cs).atEnd = true := by
      intro hend
      obtain ⟨l, hl, -⟩ := (reading_endOfInput (p := p)).2 hend
      rw [readingsFrom_atEnd hend, hl] at h
      cases h
    rw [readingsFrom_more hmore] at h
    obtain ⟨hm, -⟩ := List.cons.inj h
    obtain ⟨f, hf⟩ : ∃ f, (scan cs).outcome = .error f := by
      rw [Scan.reading] at hm
      split at hm
      · cases hm
      · next f hf => exact ⟨f, hf⟩
    have hstart : m.location.start = p.after (scan cs).before := by
      rw [Scan.reading, hf] at hm
      cases hm
      rfl
    refine ⟨(scan cs).before, (scan cs).text ++ (scan cs).rest, readingsFrom p (scan cs).before,
      (scan_append cs).symm, hstart, rfl, ?_⟩
    obtain hs | ⟨g, hg⟩ := scan_lead cs
    · left
      rw [readingsFrom_atEnd (by rw [hs]; rfl), hs, hstart]
      rfl
    · right
      have hmore : ¬ (scan (scan cs).before).atEnd = true := by
        rw [atEnd_iff, hg]
        exact fun h => by cases h
      rw [readingsFrom_more hmore, Scan.reading, hg]
      exact ⟨_, _, rfl⟩
  | cons l ls ih =>
    have hne : l.token ≠ .endOfInput := by
      intro he
      have hend := reading_endOfInput.1 ⟨l, reading_of_readingsFrom h, he⟩
      rw [readingsFrom_atEnd hend] at h
      have hlen := congrArg List.length h
      simp at hlen
    obtain ⟨-, hlocation⟩ := readingsFrom_head h
    obtain ⟨lead, rest, tail, hcs, hstart, hlead, htail⟩ := ih (readingsFrom_tail h hne)
    have hcut : lead <+: (scan cs).rest := ⟨rest, hcs.symm⟩
    have hends : l.token.Ends (scan cs).rest lead :=
      fun _ hnil => List.prefix_nil.1 (hnil ▸ hcut)
    refine ⟨(scan cs).before ++ ((scan cs).text ++ lead), rest, tail, scan_split hcs, ?_, ?_,
      htail⟩
    · rw [hstart, hlocation, after_scan_split]
    · rw [readingsFrom_follow h hne (.of_cut hcut) hends, hlead]
      rfl

end Readings

end MailSieve
