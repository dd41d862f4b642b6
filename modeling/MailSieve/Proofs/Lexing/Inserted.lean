import MailSieve.Proofs.Lexing.Prefix
import MailSieve.Proofs.Lexing.Slice
import MailSieve.Script.Equality

/-! Blanks and comments that are added.
Put in at the start of a source or right behind one of its tokens, they are passed over with the
trivia that is there, and every token is read as before. Only a literal that ends the source could
not be followed by more, but a script never ends in one. So the tree stays the same. -/

namespace MailSieve

open Text Trivia Phrase

namespace Trivia

/-- Blanks and comments, each comment up to its end. -/
inductive Closed : List Char → Prop where
  | nil : Closed []
  | blank {c : Char} {cs : List Char} : isBlank c = true → Closed cs → Closed (c :: cs)
  | line {body cs : List Char} : '\n' ∉ body → Closed cs → Closed ('#' :: body ++ '\n' :: cs)
  | bracketed {body cs : List Char} : ¬ ['*', '/'] <:+: body → Closed cs →
    Closed ('/' :: '*' :: body ++ '*' :: '/' :: cs)

variable {body cs ds text : List Char}

theorem skipLineComment_closed (h : '\n' ∉ body) : skipLineComment (body ++ '\n' :: cs)
    = (body ++ '\n' :: (skipTrivia cs).1, (skipTrivia cs).2) := by
  induction body with
  | nil =>
    rw [List.nil_append, skipLineComment, if_pos rfl]
    rfl
  | cons c body ih =>
    rw [List.mem_cons, not_or] at h
    rw [List.cons_append, skipLineComment, if_neg (Ne.symm h.1), ih h.2]
    rfl

theorem skipBlockComment_closed (h : ¬ ['*', '/'] <:+: body) :
    skipBlockComment (body ++ '*' :: '/' :: cs)
      = some (body ++ '*' :: '/' :: (skipTrivia cs).1, (skipTrivia cs).2) := by
  induction body with
  | nil =>
    rw [List.nil_append, skipBlockComment]
    rfl
  | cons c body ih =>
    have hgo : ∀ es, c = '*' → body ++ '*' :: '/' :: cs = '/' :: es → False := by
      rintro es rfl hes
      cases body with
      | nil => cases hes
      | cons d body =>
        obtain ⟨rfl, -⟩ := List.cons.inj hes
        exact h ⟨[], body, rfl⟩
    have hbody : ¬ ['*', '/'] <:+: body := fun hb => h (hb.trans (List.suffix_cons c body).isInfix)
    rw [List.cons_append, skipBlockComment.eq_3 c _ hgo, ih hbody]
    rfl

theorem Closed.skip (h : Closed text) (ds : List Char) :
    skipTrivia (text ++ ds) = (text ++ (skipTrivia ds).1, (skipTrivia ds).2) := by
  induction h with
  | nil => rfl
  | blank hc _ ih =>
    rw [List.cons_append, skipTrivia_blank hc, ih]
    rfl
  | line hbody _ ih =>
    rw [List.append_assoc, List.cons_append, List.cons_append, skipTrivia.eq_3 '#' _ (by simp),
      if_neg (by decide), if_pos rfl, skipLineComment_closed hbody, ih]
    simp [push]
  | bracketed hbody _ ih =>
    rw [List.append_assoc, List.cons_append, List.cons_append, List.cons_append,
      List.cons_append, skipTrivia, skipBlockComment_closed hbody, ih]
    simp [push]

theorem isBlank_bounded {c : Char} (h : isBlank c = true) : isWordPart c = false ∧ c ≠ ':' := by
  simp only [isBlank, Bool.or_eq_true, beq_iff_eq] at h
  obtain (((rfl | rfl) | rfl) | rfl) | rfl := h <;> decide

theorem Closed.bounded (h : Closed text) : Bounded text := by
  cases h with
  | nil => exact nofun
  | blank hc _ =>
    rintro _ ⟨⟩
    exact isBlank_bounded hc
  | line | bracketed =>
    rintro _ ⟨⟩
    decide

end Trivia

section Tokens

variable {cs ds text : List Char} {ts : List Token} {p : Position} {l : Lexeme}

theorem Lexed.trivia (h : Lexed cs ts) (ht : Closed text) : Lexed (text ++ cs) ts := by
  have hscan : (scan (text ++ cs)).outcome = (scan cs).outcome
      ∧ (scan (text ++ cs)).rest = (scan cs).rest := by
    rw [scan, ht.skip]
    exact ⟨rfl, rfl⟩
  cases h with
  | stop h => exact .stop (hscan.1.trans h)
  | step h hne hr => exact .step (hscan.1.trans h) hne (hscan.2 ▸ hr)

theorem Follows.insert (ht : Closed text) (lead rest : List Char) :
    Follows (lead ++ rest) (lead ++ (text ++ rest)) := by
  cases lead with
  | cons c lead => exact .append (List.cons_ne_nil c lead)
  | nil =>
    cases text with
    | nil => exact .of_cut (List.prefix_refl _)
    | cons c text => exact .of_bounded ht.bounded

theorem Lexed.eq_nil (h : Lexed [] ts) : ts = [] := by
  cases h with
  | stop => rfl
  | step h hne => exact absurd (Except.ok.inj h).symm hne

def Continued (ts : List Token) : Prop := ∀ us v, ts ≠ us ++ [.string v true]

theorem Continued.tail {t : Token} (h : Continued (t :: ts)) : Continued ts := by
  rintro us v rfl
  exact h (t :: us) v rfl

/-- Right behind any token there is room for trivia. -/
theorem Lexed.insert (h : Lexed cs ts) (hts : Continued ts) (hl : .ok l ∈ readingsFrom p cs)
    (hne : l.token ≠ .endOfInput) : ∃ lead rest, cs = lead ++ rest
      ∧ l.location.stop = p.after lead
      ∧ ∀ text, Closed text → Lexed (lead ++ (text ++ rest)) ts := by
  induction h generalizing p with
  | @stop cs hend =>
    rw [readingsFrom_atEnd (atEnd_iff.2 hend), List.mem_singleton] at hl
    exact absurd (Except.ok.inj ((reading_ok hl.symm).symm.trans hend)) hne
  | @step cs t ts ht htne hr ih =>
    -- The token before the place is read alike, since a literal there is followed by more.
    have hstep (lead : List Char) {rest text : List Char} (hrest : (scan cs).rest = lead ++ rest)
        (htext : Closed text) (hlexed : Lexed (lead ++ (text ++ rest)) ts) :
        Lexed ((scan cs).before ++ ((scan cs).text ++ lead) ++ (text ++ rest)) (t :: ts) := by
      have hends : t.Ends (scan cs).rest (lead ++ (text ++ rest)) := by
        rintro ⟨v, rfl⟩ hnil
        rw [hnil] at hr
        exact absurd (by rw [hr.eq_nil]; rfl) (hts [] v)
      have hfollow := scan_follow ht htne (hrest ▸ .insert htext lead rest) hends
      rw [List.append_assoc, List.append_assoc]
      refine .step ?_ htne ?_
      · rw [hfollow]
        exact ht
      · rw [hfollow]
        exact hlexed
    rw [readingsFrom_more (not_atEnd ht htne)] at hl
    obtain hl | hl := List.mem_cons.1 hl
    · have hloc : l.location = (scan cs).locate p := location_of_reading hl.symm
      refine ⟨(scan cs).before ++ (scan cs).text, (scan cs).rest, ?_, ?_, fun text htext => ?_⟩
      · rw [List.append_assoc]
        exact (scan_append cs).symm
      · rw [hloc, Position.after_append]
        rfl
      · have hlexed := hstep [] rfl htext (hr.trivia htext)
        rwa [List.append_nil] at hlexed
    · obtain ⟨lead, rest, hrest, hstop, hinsert⟩ := ih hts.tail hl
      refine ⟨(scan cs).before ++ ((scan cs).text ++ lead), rest, scan_split hrest, ?_,
        fun text htext => hstep lead hrest htext (hinsert text htext)⟩
      rw [hstop, after_scan_split]

end Tokens

namespace Phrase

variable {ts us : List Token} {n : Nat}

def Marked (ts : List Token) : Prop := ∃ us m, ts = us ++ [.mark m]

theorem Marked.prepend (h : Marked us) (ts : List Token) : Marked (ts ++ us) := by
  obtain ⟨vs, m, rfl⟩ := h
  exact ⟨ts ++ vs, m, (List.append_assoc _ _ _).symm⟩

theorem Marked.append (h : Marked ts) (hu : us = [] ∨ Marked us) : Marked (ts ++ us) := by
  obtain rfl | hu := hu
  · rwa [List.append_nil]
  · exact hu.prepend ts

theorem Marked.continued (h : Marked ts) : Continued ts := by
  obtain ⟨us, m, rfl⟩ := h
  intro vs v he
  cases (List.append_inj_right' he rfl)

theorem blockPhrase_marked {b : Block} (h : BlockPhrase n ts b) : Marked ts := by
  cases n with
  | zero => exact h.elim
  | succ n =>
    obtain ⟨hs⟩ := h
    exact ⟨_, _, rfl⟩

theorem chainPhrase_marked {c : Chain} (h : ChainPhrase n ts c) : ts = [] ∨ Marked ts := by
  induction n generalizing ts c with
  | zero => exact .inl h.1
  | succ n ih =>
    cases h with
    | done => exact .inl rfl
    | elsif _ hb hc => exact .inr (((blockPhrase_marked hb).prepend _).append (ih hc))
    | otherwise hb => exact .inr ((blockPhrase_marked hb).prepend [_])

theorem commandPhrase_marked {c : Command} (h : CommandPhrase n ts c) : Marked ts := by
  cases h with
  | clause => exact ⟨_, _, rfl⟩
  | ifTest _ hb hc => exact ((blockPhrase_marked hb).prepend _).append (chainPhrase_marked hc)
  | generic => exact ⟨_, _, rfl⟩
  | genericBlock _ _ hb => exact (blockPhrase_marked hb).prepend _

theorem scriptPhrase_continued {s : Script} (h : ScriptPhrase n ts s) : Continued ts := by
  have hmarked : ts = [] ∨ Marked ts := by
    obtain ⟨hs⟩ := h
    induction hs with
    | nil => exact .inl rfl
    | cons hc _ ih => exact .inr ((commandPhrase_marked hc).append ih)
  obtain rfl | hmarked := hmarked
  · intro us v he
    simp at he
  · exact hmarked.continued

end Phrase

namespace Script

/-- Trivia at the start of a script or right behind one of its tokens leaves its tree unchanged. -/
theorem parse_inserted {limit offset : Nat} {source text : String} {s : Script}
    (h : parse ⟨false, limit⟩ source = .ok s)
    (hoffset : offset = 0 ∨ ∃ l : Lexeme, .ok l ∈ readings source ∧ l.token ≠ .endOfInput
      ∧ l.location.stop.offset = offset)
    (ht : Closed text.toList) : parse ⟨false, limit⟩ (inserted source offset text) = .ok s := by
  obtain ⟨ts, hlexes, hs⟩ := (parse_iff rfl).1 h
  have hlexed := lexes_iff.1 hlexes
  have hinsert : ∃ lead rest, source.toList = lead ++ rest
      ∧ offset = (Position.origin.after lead).offset
      ∧ Lexed (lead ++ (text.toList ++ rest)) ts := by
    obtain rfl | ⟨l, hl, hne, rfl⟩ := hoffset
    · exact ⟨[], source.toList, rfl, rfl, hlexed.trivia ht⟩
    · obtain ⟨lead, rest, hsource, hstop, hinsert⟩ :=
        hlexed.insert (scriptPhrase_continued hs) hl hne
      exact ⟨lead, rest, hsource, by rw [hstop], hinsert _ ht⟩
  obtain ⟨lead, rest, hsource, rfl, hafter⟩ := hinsert
  rw [← inserted_after hsource] at hafter
  exact (parse_iff rfl).2 ⟨ts, lexes_iff.2 hafter, hs⟩

theorem parse_inserted_comment : parse ⟨false, 1⟩ (inserted "keep;" 4 " /*;*/")
    = .ok ⟨[.keep ⟨none, none⟩], none⟩ := by
  have hparse : parse ⟨false, 1⟩ "keep;" = .ok ⟨[.keep ⟨none, none⟩], none⟩ := by decide +kernel
  have hkeep : .ok ⟨.word "keep", ⟨.origin, ⟨4, 1, 5⟩⟩, ['k', 'e', 'e', 'p']⟩
      ∈ readings "keep;" := by
    have hreadings : readings "keep;" = [.ok ⟨.word "keep", ⟨.origin, ⟨4, 1, 5⟩⟩,
        ['k', 'e', 'e', 'p']⟩, .ok ⟨.mark .semicolon, ⟨⟨4, 1, 5⟩, ⟨5, 1, 6⟩⟩, [';']⟩,
        .ok ⟨.endOfInput, ⟨⟨5, 1, 6⟩, ⟨5, 1, 6⟩⟩, []⟩] := by decide +kernel
    rw [hreadings]
    exact List.mem_cons_self
  have hbody : ¬ ['*', '/'] <:+: [';'] := by decide
  have htext : Closed " /*;*/".toList := .blank rfl (.bracketed hbody .nil)
  exact parse_inserted hparse (.inr ⟨_, hkeep, by rintro ⟨⟩, rfl⟩) htext

end Script

end MailSieve
