import MailSieve.Proofs.Lexing.Spelled

/-! What may follow a token.
A token, and the trivia before it, are read alike whatever stands behind the token, as long as it
does not go on with it: what follows is looked at to see where the token ends, never to say what it
is. So the text may end anywhere behind a token, or go on with a blank. Where no token can be read,
the text up to the place of the report ends there, or cannot be read either. -/

namespace MailSieve

open Text Trivia

section Trivia

theorem skip_follow :
    (∀ cs ds, ((skipTrivia cs).2 = [] → ds = []) → skipTrivia ((skipTrivia cs).1 ++ ds)
        = ((skipTrivia cs).1 ++ (skipTrivia ds).1, (skipTrivia ds).2))
    ∧ (∀ cs ds, ((skipLineComment cs).2 = [] → ds = []) →
        skipLineComment ((skipLineComment cs).1 ++ ds)
          = ((skipLineComment cs).1 ++ (skipTrivia ds).1, (skipTrivia ds).2))
    ∧ (∀ cs p, skipBlockComment cs = some p → p.1 ≠ [] ∧ ∀ ds, (p.2 = [] → ds = []) →
        skipBlockComment (p.1 ++ ds) = some (p.1 ++ (skipTrivia ds).1, (skipTrivia ds).2)) := by
  apply skipTrivia.mutual_induct
  case case1 =>
    intro ds hd
    rfl
  case case2 =>
    intro cs p hp ih ds hd
    rw [skipTrivia, hp] at hd ⊢
    change skipTrivia ('/' :: '*' :: (p.1 ++ ds)) = _
    rw [skipTrivia, (ih p hp).2 ds hd]
    rfl
  case case3 =>
    intro cs hp _ ds hd
    rw [skipTrivia, hp]
    rfl
  case case4 =>
    intro c cs hc hb ih ds hd
    rw [skipTrivia.eq_3 c cs hc, if_pos hb] at hd ⊢
    change skipTrivia (c :: ((skipTrivia cs).1 ++ ds)) = _
    rw [skipTrivia_blank hb, ih ds hd]
    rfl
  case case5 =>
    intro cs hc hb ih ds hd
    rw [skipTrivia.eq_3 '#' cs hc, if_neg hb, if_pos rfl] at hd ⊢
    change skipTrivia ('#' :: ((skipLineComment cs).1 ++ ds)) = _
    rw [skipTrivia.eq_3 '#' _ (by simp), if_neg hb, if_pos rfl, ih ds hd]
    rfl
  case case6 =>
    intro c cs hc hb hh ds hd
    rw [skipTrivia.eq_3 c cs hc, if_neg hb, if_neg hh]
    rfl
  case case7 =>
    intro ds hd
    rw [hd rfl]
    rfl
  case case8 =>
    intro cs ih ds hd
    rw [skipLineComment, if_pos rfl] at hd ⊢
    change skipLineComment ('\n' :: ((skipTrivia cs).1 ++ ds)) = _
    rw [skipLineComment, if_pos rfl, ih ds hd]
    rfl
  case case9 =>
    intro c cs hc ih ds hd
    rw [skipLineComment, if_neg hc] at hd ⊢
    change skipLineComment (c :: ((skipLineComment cs).1 ++ ds)) = _
    rw [skipLineComment, if_neg hc, ih ds hd]
    rfl
  case case10 =>
    intro p hp
    simp [skipBlockComment] at hp
  case case11 =>
    intro cs ih p hp
    rw [skipBlockComment] at hp
    obtain rfl := Option.some.inj hp
    refine ⟨List.cons_ne_nil _ _, fun ds hd => ?_⟩
    change skipBlockComment ('*' :: '/' :: ((skipTrivia cs).1 ++ ds)) = _
    rw [skipBlockComment, ih ds hd]
    rfl
  case case12 =>
    intro c cs hc ih p hp
    rw [skipBlockComment.eq_3 c cs hc] at hp
    obtain ⟨q, hq, rfl⟩ := Option.map_eq_some_iff.1 hp
    obtain ⟨hne, hfollow⟩ := ih q hq
    refine ⟨List.cons_ne_nil _ _, fun ds hd => ?_⟩
    have hall := skip_append.2.2 cs q hq
    change skipBlockComment (c :: (q.1 ++ ds)) = _
    rw [skipBlockComment.eq_3 c _ ?_, hfollow ds hd]
    · rfl
    · -- The comment goes on with its own text, which does not close it here.
      rintro fs rfl hfs
      obtain ⟨d, more, hq'⟩ := List.exists_cons_of_ne_nil hne
      rw [hq'] at hall hfs
      obtain ⟨rfl, -⟩ := List.cons.inj hfs
      exact hc _ rfl hall.symm

theorem skipTrivia_again (cs : List Char) :
    skipTrivia (skipTrivia cs).2 = ([], (skipTrivia cs).2) := by
  have hall := skip_follow.1 cs (skipTrivia cs).2 id
  rw [skipTrivia_append] at hall
  have hlead : (skipTrivia (skipTrivia cs).2).1 = [] :=
    List.append_right_eq_self.1 (congrArg Prod.fst hall).symm
  exact Prod.ext hlead (congrArg Prod.snd hall).symm

theorem skipTrivia_starts {ds : List Char} (h : ∀ c ∈ ds.head?, startsToken c = true) :
    skipTrivia ds = ([], ds) := by
  cases ds with
  | nil => rfl
  | cons c ds => exact skipTrivia_token (h c rfl)

theorem skipTrivia_follow {cs ds : List Char} (hd : (skipTrivia cs).2 = [] → ds = [])
    (hs : ∀ c ∈ ds.head?, startsToken c = true) :
    skipTrivia ((skipTrivia cs).1 ++ ds) = ((skipTrivia cs).1, ds) := by
  rw [skip_follow.1 cs ds hd, skipTrivia_starts hs, List.append_nil]

end Trivia

section Tokens

variable {p : Char → Bool} {cs ds rest text value lead : List Char} {t : Token}

/-- `ds` can stand behind a token in the place of `rest`: it begins as `rest` does, or with a
character that goes on with no token. -/
def Follows (rest ds : List Char) : Prop :=
  ∀ c ∈ ds.head?, c ∈ rest.head? ∨ isWordPart c = false ∧ c ≠ ':'

theorem Follows.of_cut (h : ds <+: rest) : Follows rest ds := by
  intro c hc
  obtain ⟨es, rfl⟩ := h
  cases ds with
  | nil => cases hc
  | cons d ds => exact .inl hc

theorem Follows.of_bounded (h : Bounded ds) : Follows rest ds := fun c hc => .inr (h c hc)

theorem Follows.append (hne : cs ≠ []) : Follows (cs ++ rest) (cs ++ ds) := by
  obtain ⟨c, cs, rfl⟩ := List.exists_cons_of_ne_nil hne
  exact fun _ hc => .inl hc

theorem not_of_head_dropWhile {c : Char} (h : c ∈ (cs.dropWhile p).head?) : p c = false := by
  have hnot := List.head?_dropWhile_not p cs
  rw [Option.mem_def.1 h] at hnot
  exact hnot

theorem Follows.not_of_dropWhile (h : Follows (cs.dropWhile p) ds)
    (hp : ∀ c, p c = true → isWordPart c = true) : ∀ c ∈ ds.head?, p c = false := by
  intro c hc
  obtain hrest | ⟨hpart, -⟩ := h c hc
  · exact not_of_head_dropWhile hrest
  · rw [Bool.eq_false_iff]
    intro hpc
    cases (hp c hpc).symm.trans hpart

theorem takeWhile_follow (cs : List Char) (h : ∀ c ∈ ds.head?, p c = false) :
    (cs.takeWhile p ++ ds).takeWhile p = cs.takeWhile p
      ∧ (cs.takeWhile p ++ ds).dropWhile p = ds :=
  takeWhile_of_bounded (List.all_eq_true.1 List.all_takeWhile) h

theorem scanQuoted_follow (h : Quoted.scanQuoted cs = .closed value text rest) (ds : List Char) :
    Quoted.scanQuoted (text ++ ds) = .closed value text ds := by
  fun_induction Quoted.scanQuoted cs generalizing value text with
  | case1 => cases h
  | case2 cs =>
    cases h
    rfl
  | case3 => cases h
  | case4 c cs hc ih =>
    obtain ⟨v, t, hr, rfl, rfl⟩ := Quoted.Result.push_eq_closed.1 h
    change Quoted.scanQuoted ('\\' :: c :: (t ++ ds)) = _
    rw [Quoted.scanQuoted, if_pos hc, ih hr]
    rfl
  | case5 => cases h
  | case6 c cs h₁ h₂ h₃ ih =>
    obtain ⟨v, t, hr, rfl, rfl⟩ := Quoted.Result.push_eq_closed.1 h
    have hc : c ≠ '\\' := by
      rintro rfl
      cases cs with
      | nil => exact h₂ rfl rfl
      | cons d cs => exact h₃ d cs rfl rfl
    change Quoted.scanQuoted (c :: (t ++ ds)) = _
    rw [Quoted.scanQuoted.eq_5 c _ h₁ (fun h => absurd h hc) fun _ _ h => absurd h hc, ih hr]
    rfl

theorem scanQuoted_lead {c : Char} (h : Quoted.scanQuoted cs = .badEscape lead c rest) :
    ∃ text more, Quoted.scanQuoted lead = .unclosed text more := by
  fun_induction Quoted.scanQuoted cs generalizing lead with
  | case1 | case2 | case3 => cases h
  | case4 d cs hd ih =>
    cases hr : Quoted.scanQuoted cs with
    | closed v t r | unclosed t r =>
      rw [hr] at h
      cases h
    | badEscape l e r =>
      rw [hr] at h
      cases h
      obtain ⟨text, more, hl⟩ := ih hr
      refine ⟨'\\' :: d :: text, more, ?_⟩
      change Quoted.scanQuoted ('\\' :: d :: l) = _
      rw [Quoted.scanQuoted, if_pos hd, hl]
      rfl
  | case5 =>
    cases h
    exact ⟨[], [], rfl⟩
  | case6 d cs h₁ h₂ h₃ ih =>
    cases hr : Quoted.scanQuoted cs with
    | closed v t r | unclosed t r =>
      rw [hr] at h
      cases h
    | badEscape l e r =>
      rw [hr] at h
      cases h
      obtain ⟨text, more, hl⟩ := ih hr
      refine ⟨d :: text, more, ?_⟩
      have hd : d ≠ '\\' := by
        rintro rfl
        cases cs with
        | nil => exact h₂ rfl rfl
        | cons e cs => exact h₃ e cs rfl rfl
      change Quoted.scanQuoted (d :: l) = _
      rw [Quoted.scanQuoted.eq_5 d _ h₁ (fun h => absurd h hd) fun _ _ h => absurd h hd, hl]
      rfl

theorem scanNumber_plain
    (h : ∀ c ∈ (cs.dropWhile Char.isDigit).head?, Quantifier.ofLetter? c = none) :
    scanNumber cs = ⟨[], cs.takeWhile Char.isDigit,
      numberOutcome (cs.takeWhile Char.isDigit) none, cs.dropWhile Char.isDigit⟩ := by
  rw [scanNumber]
  split
  · next hd => rw [hd]
  · next c rest hd =>
    rw [hd] at h
    rw [h c rfl, hd]

theorem scanNumber_suffix {c : Char} {q : Quantifier} (hd : cs.dropWhile Char.isDigit = c :: rest)
    (hq : Quantifier.ofLetter? c = some q) :
    scanNumber cs = ⟨[], cs.takeWhile Char.isDigit ++ [c],
      numberOutcome (cs.takeWhile Char.isDigit) (some q), rest⟩ := by
  rw [scanNumber, hd]
  dsimp only
  rw [hq]

theorem scanNumber_follow (h : Follows (scanNumber cs).rest ds) :
    scanNumber ((scanNumber cs).text ++ ds) = { scanNumber cs with rest := ds } := by
  obtain hplain | ⟨c, rest, q, hd, hq⟩ :
      (∀ c ∈ (cs.dropWhile Char.isDigit).head?, Quantifier.ofLetter? c = none)
        ∨ ∃ c rest q, cs.dropWhile Char.isDigit = c :: rest ∧ Quantifier.ofLetter? c = some q := by
    cases hd : cs.dropWhile Char.isDigit with
    | nil => exact .inl nofun
    | cons c rest =>
      cases hq : Quantifier.ofLetter? c with
      | none =>
        left
        rintro _ ⟨⟩
        exact hq
      | some q => exact .inr ⟨c, rest, q, rfl, hq⟩
  · rw [scanNumber_plain hplain] at h ⊢
    obtain ⟨htake, hdrop⟩ := takeWhile_follow cs (h.not_of_dropWhile fun _ => isWordPart_of_digit)
    dsimp only at h ⊢
    rw [scanNumber_plain, htake, hdrop]
    intro c hc
    rw [hdrop] at hc
    obtain hrest | ⟨hpart, -⟩ := h c hc
    · exact hplain c hrest
    · exact ofLetter?_of_not_part hpart
  · have hdigit : c.isDigit = false := not_of_head_dropWhile (by rw [hd]; rfl)
    have hend : ∀ d ∈ (c :: ds).head?, d.isDigit = false := by simpa using hdigit
    obtain ⟨htake, hdrop⟩ := takeWhile_follow cs hend
    rw [scanNumber_suffix hd hq]
    dsimp only
    rw [List.append_assoc, List.singleton_append, scanNumber_suffix hdrop hq, htake]

theorem scanTag_follow (ht : (scanTag cs).outcome = .ok t) (h : Follows (scanTag cs).rest ds) :
    (scanTag cs).before = [] ∧ ∃ text, (scanTag cs).text = ':' :: text
      ∧ scanTag (text ++ ds) = { scanTag cs with rest := ds } := by
  cases cs with
  | nil => cases ht
  | cons c cs =>
    by_cases hc : isWordStart c = true
    · have hs : scanTag (c :: cs) = ⟨[], ':' :: (c :: cs).takeWhile isWordPart,
          .ok (.tag (String.ofList ((c :: cs).takeWhile isWordPart))),
          (c :: cs).dropWhile isWordPart⟩ := by
        rw [scanTag.eq_def]
        dsimp only
        rw [if_pos hc]
      rw [hs] at h ⊢
      obtain ⟨htake, hdrop⟩ := takeWhile_follow (c :: cs) (h.not_of_dropWhile fun _ => id)
      refine ⟨rfl, (c :: cs).takeWhile isWordPart, rfl, ?_⟩
      have hp := isWordPart_of_start hc
      rw [List.takeWhile_cons_of_pos hp, List.cons_append] at htake hdrop
      rw [List.takeWhile_cons_of_pos hp, List.cons_append, scanTag.eq_def]
      dsimp only
      rw [if_pos hc, htake, hdrop]
    · rw [scanTag.eq_def] at ht
      dsimp only at ht
      rw [if_neg hc] at ht
      cases ht

theorem scanString_follow (ht : (scanString cs).outcome = .ok t) (ds : List Char) :
    (scanString cs).before = [] ∧ ∃ text, (scanString cs).text = '"' :: text
      ∧ scanString (text ++ ds) = { scanString cs with rest := ds } := by
  cases hq : Quoted.scanQuoted cs with
  | closed value text rest =>
    have hs : scanString cs
        = ⟨[], '"' :: text, .ok (.string (String.ofList value) false), rest⟩ := by
      rw [scanString, hq]
    rw [hs]
    refine ⟨rfl, text, rfl, ?_⟩
    rw [scanString, scanQuoted_follow hq ds]
  | badEscape | unclosed =>
    rw [scanString, hq] at ht
    cases ht

end Tokens

section TextBlocks

open TextBlock

variable {cs ds body rest text value lead : List Char} {crlf : Bool}

theorem header_follow (h : ∀ c ∈ ds.head?, c ∈ (afterHeader cs).head?) :
    headerLead (headerLead cs ++ ds) = headerLead cs
      ∧ afterHeader (headerLead cs ++ ds) = ds := by
  by_cases hc : (cs.dropWhile isInlineBlank).head? = some '#'
  · rw [afterHeader, if_pos hc] at h
    have hlead : headerLead cs = cs.takeWhile isInlineBlank
        ++ (cs.dropWhile isInlineBlank).takeWhile isLineText := by rw [headerLead, if_pos hc]
    obtain ⟨hline, hrest⟩ := takeWhile_follow _ fun c hc => not_of_head_dropWhile (h c hc)
    have hhead : ((cs.dropWhile isInlineBlank).takeWhile isLineText ++ ds).head? = some '#' := by
      obtain ⟨rest, hr⟩ := List.head?_eq_some_iff.1 hc
      rw [hr]
      rfl
    have hblank : ∀ c ∈ ((cs.dropWhile isInlineBlank).takeWhile isLineText ++ ds).head?,
        isInlineBlank c = false := by
      rw [hhead]
      rintro c ⟨⟩
      rfl
    obtain ⟨htake, hdrop⟩ := takeWhile_follow cs hblank
    rw [hlead, List.append_assoc, headerLead, afterHeader, htake, hdrop, if_pos hhead,
      if_pos hhead, hline, hrest]
    exact ⟨rfl, rfl⟩
  · rw [afterHeader, if_neg hc] at h
    have hlead : headerLead cs = cs.takeWhile isInlineBlank := by rw [headerLead, if_neg hc]
    obtain ⟨htake, hdrop⟩ := takeWhile_follow _ fun c hc => not_of_head_dropWhile (h c hc)
    have hhead : ds.head? ≠ some '#' := fun hd => hc (h '#' hd)
    rw [hlead, headerLead, afterHeader, htake, hdrop, if_neg hhead, if_neg hhead]
    exact ⟨rfl, rfl⟩

theorem splitAtDot_eq_some {ls lines more : List (List Char)} {dot : List Char}
    (h : splitAtDot ls = some (lines, dot, more)) :
    (∀ l ∈ lines, isDotLine l = false) ∧ isDotLine dot = true := by
  induction ls generalizing lines with
  | nil => cases h
  | cons l ls ih =>
    rw [splitAtDot] at h
    split at h
    · next hl =>
      cases h
      exact ⟨by simp, hl⟩
    · next hl =>
      obtain ⟨⟨b, d, a⟩, hr, he⟩ := Option.map_eq_some_iff.1 h
      cases he
      obtain ⟨hb, hd⟩ := ih hr
      exact ⟨List.forall_mem_cons.2 ⟨by simpa using hl, hb⟩, hd⟩

theorem scanBody_follow (h : scanBody crlf lead body = .closed value text rest)
    (hd : rest = [] → ds = []) : ∃ read, text = lead ++ read ∧ body = read ++ rest
      ∧ scanBody crlf lead (read ++ ds) = .closed value text ds := by
  have hall := all_scanBody crlf lead body
  rw [h] at hall
  cases hs : splitAtDot (segments body) with
  | none =>
    rw [scanBody, hs] at h
    cases h
  | some r =>
    obtain ⟨lines, dot, more⟩ := r
    have hbody := splitAtDot_append hs
    obtain ⟨hlines, hdot⟩ := splitAtDot_eq_some hs
    cases more with
    | nil =>
      have hb := h
      rw [scanBody, hs] at h
      cases h
      obtain rfl := hd rfl
      refine ⟨joinSegments (lines ++ [dot]), rfl, ?_, ?_⟩
      · rw [hbody, joinSegments_segments, List.append_nil]
      · rw [hbody, joinSegments_segments, List.append_nil, hb, hbody, joinSegments_segments]
    | cons s ss =>
      rw [scanBody, hs] at h
      cases h
      refine ⟨joinSegments (lines ++ [dot]) ++ ['\n'], by rw [List.append_assoc], ?_, ?_⟩
      · rw [← joinSegments_segments body, ← hbody, joinSegments_append_cons, List.append_assoc,
          List.singleton_append]
      · have hsegments : segments (joinSegments (lines ++ [dot])) = lines ++ [dot] := by
          refine segments_joinSegments (by simp) fun l hl => not_mem_segments body l ?_
          rw [← hbody]
          have hsub : lines ++ [dot] ⊆ lines ++ dot :: s :: ss := by simp
          exact hsub hl
        obtain ⟨s', ss', hds⟩ := List.exists_cons_of_ne_nil (segments_ne_nil ds)
        have hsplit : splitAtDot (segments (joinSegments (lines ++ [dot]) ++ ['\n'] ++ ds))
            = some (lines, dot, s' :: ss') := by
          rw [List.append_assoc, List.singleton_append, segments_append_newline, hsegments, hds,
            List.append_assoc, List.singleton_append, splitAtDot_append_dot hlines hdot]
        rw [scanBody, hsplit]
        dsimp only
        rw [← hds, joinSegments_segments]

theorem scanTextBlock_follow (h : scanTextBlock cs = .closed value text rest)
    (hd : rest = [] → ds = []) : scanTextBlock (text ++ ds) = .closed value text ds := by
  have hlead (lf : List Char) {body : List Char} {crlf : Bool} (hne : lf ≠ [])
      (ha : afterHeader cs = lf ++ body)
      (hb : scanBody crlf (headerLead cs ++ lf) body = .closed value text rest) :
      ∃ read, headerLead (text ++ ds) = headerLead cs
        ∧ afterHeader (text ++ ds) = lf ++ (read ++ ds)
        ∧ scanBody crlf (headerLead cs ++ lf) (read ++ ds) = .closed value text ds := by
    obtain ⟨read, rfl, rfl, hread⟩ := scanBody_follow hb hd
    have hhead : ∀ c ∈ (lf ++ (read ++ ds)).head?, c ∈ (afterHeader cs).head? := by
      obtain ⟨c, lf, rfl⟩ := List.exists_cons_of_ne_nil hne
      rw [ha]
      exact fun _ hc => hc
    obtain ⟨hl, hr⟩ := header_follow hhead
    have htext : headerLead cs ++ lf ++ read ++ ds = headerLead cs ++ (lf ++ (read ++ ds)) := by
      simp
    exact ⟨read, htext ▸ hl, htext ▸ hr, hread⟩
  rw [scanTextBlock] at h
  split at h
  · next body ha =>
    obtain ⟨read, hl, hr, hread⟩ := hlead ['\r', '\n'] (List.cons_ne_nil _ _) ha h
    rw [scanTextBlock, hr, hl]
    exact hread
  · next body ha =>
    obtain ⟨read, hl, hr, hread⟩ := hlead ['\n'] (List.cons_ne_nil _ _) ha h
    rw [scanTextBlock, hr, hl]
    exact hread
  · cases h

theorem scanTextBlock_lead (h : scanTextBlock cs = .noBreak lead rest) :
    lead <+: cs ∧ scanTextBlock lead = .noBreak lead [] := by
  have hlead : lead = headerLead cs := by
    rw [scanTextBlock] at h
    split at h
    · rw [scanBody] at h
      split at h <;> cases h
    · rw [scanBody] at h
      split at h <;> cases h
    · cases h
      rfl
  have hnil : ∀ c ∈ ([] : List Char).head?, c ∈ (afterHeader cs).head? := by
    intro c hc
    cases hc
  obtain ⟨hl, hr⟩ := header_follow hnil
  rw [List.append_nil] at hl hr
  rw [hlead, scanTextBlock, hr, hl]
  exact ⟨⟨_, headerLead_append cs⟩, rfl⟩

end TextBlocks

section Steps

variable {cs ds : List Char} {t : Token}

theorem scanWord_plain (h : ∀ rest, cs.dropWhile isWordPart = ':' :: rest →
      cs.takeWhile isWordPart ≠ ['t', 'e', 'x', 't']) :
    scanWord cs = ⟨[], cs.takeWhile isWordPart,
      .ok (.word (String.ofList (cs.takeWhile isWordPart))), cs.dropWhile isWordPart⟩ := by
  rw [scanWord]
  split
  · next rest hd => rw [if_neg (h rest hd), hd]
  · rfl

theorem scanWord_text {rest : List Char} (hd : cs.dropWhile isWordPart = ':' :: rest)
    (hw : cs.takeWhile isWordPart = ['t', 'e', 'x', 't']) :
    scanWord cs = scanTextBlockToken (cs.takeWhile isWordPart) rest := by
  rw [scanWord]
  split
  · next rest' hd' =>
    cases hd.symm.trans hd'
    rw [if_pos hw]
  · next hne => exact absurd hd (hne rest)

theorem scanWord_cases (cs : List Char) :
    scanWord cs = ⟨[], cs.takeWhile isWordPart,
        .ok (.word (String.ofList (cs.takeWhile isWordPart))), cs.dropWhile isWordPart⟩
      ∨ ∃ rest, cs.dropWhile isWordPart = ':' :: rest
        ∧ cs.takeWhile isWordPart = ['t', 'e', 'x', 't']
        ∧ scanWord cs = scanTextBlockToken (cs.takeWhile isWordPart) rest := by
  by_cases hplain : ∀ rest, cs.dropWhile isWordPart = ':' :: rest →
      cs.takeWhile isWordPart ≠ ['t', 'e', 'x', 't']
  · exact .inl (scanWord_plain hplain)
  · obtain ⟨rest, hd, hw⟩ : ∃ rest, cs.dropWhile isWordPart = ':' :: rest
        ∧ cs.takeWhile isWordPart = ['t', 'e', 'x', 't'] := by simpa using hplain
    exact .inr ⟨rest, hd, hw, scanWord_text hd hw⟩

/-- A literal ends a text only if nothing follows it. -/
def Token.Ends (t : Token) (rest ds : List Char) : Prop :=
  (∃ v, t = .string v true) → rest = [] → ds = []

theorem scanWord_follow (ht : (scanWord cs).outcome = .ok t) (h : Follows (scanWord cs).rest ds)
    (he : t.Ends (scanWord cs).rest ds) : (scanWord cs).before = []
      ∧ scanWord ((scanWord cs).text ++ ds) = { scanWord cs with rest := ds } := by
  by_cases hplain : ∀ rest, cs.dropWhile isWordPart = ':' :: rest →
      cs.takeWhile isWordPart ≠ ['t', 'e', 'x', 't']
  · rw [scanWord_plain hplain] at h ⊢
    dsimp only at h ⊢
    obtain ⟨htake, hdrop⟩ := takeWhile_follow cs (h.not_of_dropWhile fun _ => id)
    refine ⟨rfl, ?_⟩
    rw [scanWord_plain, htake, hdrop]
    intro rest hr
    rw [hdrop] at hr
    rw [htake]
    obtain hcolon | ⟨-, hne⟩ := h ':' (by rw [hr]; rfl)
    · obtain ⟨more, hmore⟩ := List.head?_eq_some_iff.1 (Option.mem_def.1 hcolon)
      exact hplain more hmore
    · exact absurd rfl hne
  · obtain ⟨rest, hd, hw⟩ : ∃ rest, cs.dropWhile isWordPart = ':' :: rest
        ∧ cs.takeWhile isWordPart = ['t', 'e', 'x', 't'] := by simpa using hplain
    rw [scanWord_text hd hw, scanTextBlockToken] at ht he ⊢
    cases hb : TextBlock.scanTextBlock rest with
    | noBreak | unclosed =>
      rw [hb] at ht
      cases ht
    | closed value text more =>
      rw [hb] at ht he
      cases ht
      have hcolon : ∀ c ∈ (':' :: (text ++ ds)).head?, isWordPart c = false := by
        rintro c ⟨⟩
        rfl
      obtain ⟨htake, hdrop⟩ := takeWhile_follow cs hcolon
      refine ⟨rfl, ?_⟩
      dsimp only
      rw [List.append_assoc, List.cons_append, scanWord_text hdrop (htake.trans hw), htake,
        scanTextBlockToken, scanTextBlock_follow hb (he ⟨_, rfl⟩)]

theorem scanNumber_before (cs : List Char) : (scanNumber cs).before = [] := by
  rw [scanNumber]
  split
  · rfl
  · split <;> rfl

theorem scanToken_mark {c : Char} {p : Punctuation} (hp : Punctuation.ofChar? c = some p)
    (cs : List Char) : scanToken (c :: cs) = ⟨[], [c], .ok (.mark p), cs⟩ := by
  rw [scanToken.eq_def]
  dsimp only
  rw [hp]

theorem scanToken_other {c : Char} (hp : Punctuation.ofChar? c = none) (cs : List Char) :
    scanToken (c :: cs) = if c = '"' then scanString cs
      else if c = ':' then scanTag cs
      else if c.isDigit then scanNumber (c :: cs)
      else if isWordStart c then scanWord (c :: cs)
      else if c = '/' ∧ cs.head? = some '*' then ⟨[], c :: cs, .error .unclosedComment, []⟩
      else ⟨[], [c], .error (.unexpectedCharacter c), cs⟩ := by
  rw [scanToken.eq_def]
  dsimp only
  rw [hp]

/-- The tokens that can be read at a character, and for quoted strings how. -/
inductive TokenAt (c : Char) (cs : List Char) : Token → Prop where
  | quoted {value text rest : List Char} : Quoted.scanQuoted cs = .closed value text rest →
    (scanToken (c :: cs)).text = '"' :: text → TokenAt c cs (.string (String.ofList value) false)
  | block {value : String} : TokenAt c cs (.string value true)
  | tag {name : String} : TokenAt c cs (.tag name)
  | word {name : String} : TokenAt c cs (.word name)
  | number {n : UInt64} {q : Option Quantifier} : TokenAt c cs (.number n q)
  | mark {p : Punctuation} : Punctuation.ofChar? c = some p → TokenAt c cs (.mark p)

theorem tokenAt_of_outcome {c : Char} {cs : List Char} {t : Token}
    (h : (scanToken (c :: cs)).outcome = .ok t) : TokenAt c cs t := by
  have hnumber {digits : List Char} {q : Option Quantifier} (h : numberOutcome digits q = .ok t) :
      TokenAt c cs t := by
    rw [numberOutcome] at h
    split at h <;> cases h
    exact .number
  cases hp : Punctuation.ofChar? c with
  | some p =>
    rw [scanToken_mark hp] at h
    cases h
    exact .mark hp
  | none =>
    have hother := scanToken_other hp cs
    rw [hother] at h
    split at h
    · next hq =>
      rw [if_pos hq] at hother
      rw [scanString] at h hother
      split at h
      · next value text rest hr =>
        cases h
        exact .quoted hr (by rw [hother, hr])
      · cases h
      · cases h
    · split at h
      · rw [scanTag.eq_def] at h
        split at h
        · cases h
        · split at h <;> cases h
          exact .tag
      · split at h
        · rw [scanNumber] at h
          split at h
          · exact hnumber h
          · split at h <;> exact hnumber h
        · split at h
          · rw [scanWord] at h
            split at h
            · split at h
              · rw [scanTextBlockToken] at h
                split at h <;> cases h
                exact .block
              · cases h
                exact .word
            · cases h
              exact .word
          · split at h <;> cases h

theorem Scan.text_cons {s : Scan} {c : Char} (hb : s.before = []) (hall : s.all = c :: cs)
    (hm : s.before ++ s.text ≠ []) : ∃ text, s.text = c :: text := by
  rw [all, hb, List.nil_append] at hall
  rw [hb, List.nil_append] at hm
  obtain ⟨d, text, htext⟩ := List.exists_cons_of_ne_nil hm
  rw [htext, List.cons_append, List.cons.injEq] at hall
  exact ⟨text, by rw [htext, hall.1]⟩

/-- A token is the same token whatever follows it. -/
theorem scanToken_follow (ht : (scanToken cs).outcome = .ok t) (hne : t ≠ .endOfInput)
    (h : Follows (scanToken cs).rest ds) (he : t.Ends (scanToken cs).rest ds) :
    (scanToken cs).before = []
      ∧ scanToken ((scanToken cs).text ++ ds) = { scanToken cs with rest := ds } := by
  cases cs with
  | nil => exact absurd (Except.ok.inj ht).symm hne
  | cons c cs =>
    have hall := scanToken_append (c :: cs)
    have hmoves : (scanToken (c :: cs)).before ++ (scanToken (c :: cs)).text ≠ [] :=
      (scanToken_moves (c :: cs)).resolve_left (not_atEnd ht hne)
    cases hp : Punctuation.ofChar? c with
    | some p =>
      rw [scanToken_mark hp]
      exact ⟨rfl, scanToken_mark hp ds⟩
    | none =>
      have hother := scanToken_other hp
      by_cases hq : c = '"'
      · simp only [hother, if_pos hq] at ht ⊢
        obtain ⟨hb, text, htext, hfollow⟩ := scanString_follow ht ds
        refine ⟨hb, ?_⟩
        rw [htext, List.cons_append, ← hq, hother, if_pos hq, hfollow]
        simp only [htext, hq]
      · by_cases hcolon : c = ':'
        · simp only [hother, if_neg hq, if_pos hcolon] at ht h ⊢
          obtain ⟨hb, text, htext, hfollow⟩ := scanTag_follow ht h
          refine ⟨hb, ?_⟩
          rw [htext, List.cons_append, ← hcolon, hother, if_neg hq, if_pos hcolon, hfollow]
          simp only [htext, hcolon]
        · by_cases hdigit : c.isDigit = true
          · simp only [hother, if_neg hq, if_neg hcolon, if_pos hdigit] at h hall hmoves ⊢
            have hb := scanNumber_before (c :: cs)
            have hfollow := scanNumber_follow h
            obtain ⟨text, htext⟩ := Scan.text_cons hb hall hmoves
            refine ⟨hb, ?_⟩
            rw [htext, List.cons_append] at hfollow ⊢
            rw [hother, if_neg hq, if_neg hcolon, if_pos hdigit, hfollow]
            simp only [htext]
          · by_cases hword : isWordStart c = true
            · simp only [hother, if_neg hq, if_neg hcolon, if_neg hdigit, if_pos hword]
                at ht h he hall hmoves ⊢
              obtain ⟨hb, hfollow⟩ := scanWord_follow ht h he
              obtain ⟨text, htext⟩ := Scan.text_cons hb hall hmoves
              refine ⟨hb, ?_⟩
              rw [htext, List.cons_append] at hfollow ⊢
              rw [hother, if_neg hq, if_neg hcolon, if_neg hdigit, if_pos hword, hfollow]
              simp only [htext]
            · simp only [hother, if_neg hq, if_neg hcolon, if_neg hdigit, if_neg hword] at ht
              split at ht <;> cases ht

theorem scanToken_not_starts {c : Char} (h : startsToken c = false) (cs : List Char) :
    (scanToken (c :: cs)).before = [] ∧ ∃ g, (scanToken (c :: cs)).outcome = .error g := by
  have hne {d : Char} (hd : startsToken d = true) : c ≠ d := by
    rintro rfl
    cases h.symm.trans hd
  have hpart : ¬ isWordPart c = true := fun hc => hne (startsToken_of_part hc) rfl
  have hp : Punctuation.ofChar? c = none := by
    rw [Punctuation.ofChar?, List.find?_eq_none]
    intro p _ hp
    exact hne (by cases p <;> rfl) (beq_iff_eq.1 hp).symm
  rw [scanToken_other hp, if_neg (hne rfl), if_neg (hne rfl),
    if_neg fun hc => hpart (isWordPart_of_digit hc),
    if_neg fun hc => hpart (isWordPart_of_start hc)]
  split
  · exact ⟨rfl, _, rfl⟩
  · exact ⟨rfl, _, rfl⟩

theorem scanToken_text_starts (ht : (scanToken cs).outcome = .ok t) (hne : t ≠ .endOfInput) :
    ∃ c text, (scanToken cs).text = c :: text ∧ startsToken c = true := by
  cases cs with
  | nil => exact absurd (Except.ok.inj ht).symm hne
  | cons c cs =>
    have hmoves := (scanToken_moves (c :: cs)).resolve_left (not_atEnd ht hne)
    have hnil : Follows (scanToken (c :: cs)).rest [] := nofun
    have hb := (scanToken_follow ht hne hnil fun _ _ => rfl).1
    obtain ⟨text, htext⟩ := Scan.text_cons hb (scanToken_append _) hmoves
    refine ⟨c, text, htext, ?_⟩
    cases hc : startsToken c with
    | true => rfl
    | false =>
      obtain ⟨-, g, hg⟩ := scanToken_not_starts hc cs
      cases ht.symm.trans hg

theorem scanToken_before_starts (cs : List Char) :
    ∀ c ∈ (scanToken cs).before.head?, startsToken c = true := by
  intro d hd
  obtain ⟨before, hb⟩ := List.head?_eq_some_iff.1 (Option.mem_def.1 hd)
  cases cs with
  | nil => cases hb
  | cons c cs =>
    have hall := scanToken_append (c :: cs)
    rw [Scan.all, hb, List.cons_append, List.cons.injEq] at hall
    obtain ⟨rfl, -⟩ := hall
    cases hc : startsToken d with
    | true => rfl
    | false => cases hb.symm.trans (scanToken_not_starts hc cs).1

end Steps

end MailSieve
