import MailSieve.Proofs.Lexing.Inserted
import MailSieve.Proofs.Lexing.Stretch

/-! Tokens and trivia tile a source.
Where a source is read without a fault, its tokens stand apart and in order, and before, between and
behind them there is nothing but trivia. Every token depends on its own text alone: where this text
is all there is, it is read as the same token. -/

namespace MailSieve

open Trivia

namespace Trivia

/-- Trivia that ends a text, where the last comment need not be closed by a line feed. -/
def Final (cs : List Char) : Prop :=
  Closed cs ∨ ∃ lead body, cs = lead ++ '#' :: body ∧ Closed lead ∧ '\n' ∉ body

/-- What was skipped, and what is left: only at the end of the text a comment may stay open. -/
def Skipped (p : List Char × List Char) : Prop := Final p.1 ∧ (p.2 ≠ [] → Closed p.1)

def LineSkipped (p : List Char × List Char) : Prop :=
  ('\n' ∉ p.1 ∧ p.2 = [])
    ∨ ∃ body more, p.1 = body ++ '\n' :: more ∧ '\n' ∉ body ∧ Skipped (more, p.2)

def BlockSkipped (p : List Char × List Char) : Prop :=
  ∃ body more, p.1 = body ++ '*' :: '/' :: more ∧ ¬ ['*', '/'] <:+: body ∧ Skipped (more, p.2)

section Skipping

variable {p : List Char × List Char} {c : Char} {lead : List Char}

theorem Skipped.prepend (hlead : ∀ cs, Closed cs → Closed (lead ++ cs)) (h : Skipped p) :
    Skipped (lead ++ p.1, p.2) := by
  obtain ⟨hfinal, hclosed⟩ := h
  refine ⟨?_, fun hp => hlead _ (hclosed hp)⟩
  obtain h | ⟨front, body, hp, hfront, hbody⟩ := hfinal
  · exact .inl (hlead _ h)
  · exact .inr ⟨lead ++ front, body, by rw [hp, List.append_assoc], hlead _ hfront, hbody⟩

theorem LineSkipped.skipped (h : LineSkipped p) : Skipped (push '#' p) := by
  obtain ⟨hbody, hp⟩ | ⟨body, more, hp, hbody, hmore⟩ := h
  · exact ⟨.inr ⟨[], p.1, rfl, .nil, hbody⟩, fun hne => absurd hp hne⟩
  · have hline : Skipped ('#' :: body ++ ['\n'] ++ more, p.2) := hmore.prepend fun cs hcs => by
      rw [List.append_assoc]
      exact .line hbody hcs
    rwa [List.append_assoc, List.cons_append, List.singleton_append, ← hp] at hline

theorem BlockSkipped.skipped (h : BlockSkipped p) : Skipped (push '/' (push '*' p)) := by
  obtain ⟨body, more, hp, hbody, hmore⟩ := h
  have hcomment : Skipped ('/' :: '*' :: body ++ ['*', '/'] ++ more, p.2) :=
    hmore.prepend fun cs hcs => by
      rw [List.append_assoc]
      exact .bracketed hbody hcs
  rwa [List.append_assoc, List.cons_append, List.cons_append, List.cons_append, List.cons_append,
    List.nil_append, ← hp] at hcomment

theorem LineSkipped.push (hc : c ≠ '\n') (h : LineSkipped p) : LineSkipped (push c p) := by
  obtain ⟨hbody, hp⟩ | ⟨body, more, hp, hbody, hmore⟩ := h
  · exact .inl ⟨List.not_mem_cons_of_ne_of_not_mem hc.symm hbody, hp⟩
  · refine .inr ⟨c :: body, more, ?_, List.not_mem_cons_of_ne_of_not_mem hc.symm hbody, hmore⟩
    rw [Trivia.push, hp, List.cons_append]

theorem BlockSkipped.push (hc : ∀ ds, c = '*' → p.1 ++ p.2 = '/' :: ds → False)
    (h : BlockSkipped p) : BlockSkipped (push c p) := by
  obtain ⟨body, more, hp, hbody, hmore⟩ := h
  refine ⟨c :: body, more, ?_, ?_, hmore⟩
  · rw [Trivia.push, hp, List.cons_append]
  · intro hinfix
    obtain hprefix | hinfix := List.infix_cons_iff.1 hinfix
    · obtain ⟨rfl, hslash⟩ := List.cons_prefix_cons.1 hprefix
      obtain ⟨ds, rfl⟩ := hslash
      exact hc _ rfl (by rw [hp]; rfl)
    · exact hbody hinfix

theorem skip_skipped : (∀ cs, Skipped (skipTrivia cs)) ∧ (∀ cs, LineSkipped (skipLineComment cs))
    ∧ ∀ cs p, skipBlockComment cs = some p → BlockSkipped p := by
  apply skipTrivia.mutual_induct
  case case1 => exact ⟨.inl .nil, fun _ => .nil⟩
  case case2 =>
    intro cs p hp ih
    rw [skipTrivia, hp]
    exact (ih p hp).skipped
  case case3 =>
    intro cs hp _
    rw [skipTrivia, hp]
    exact ⟨.inl .nil, fun _ => .nil⟩
  case case4 =>
    intro c cs hc hb ih
    rw [skipTrivia.eq_3 c cs hc, if_pos hb]
    have hblank (ds : List Char) (hds : Closed ds) : Closed ([c] ++ ds) := .blank hb hds
    exact ih.prepend hblank
  case case5 =>
    intro cs hc hb ih
    rw [skipTrivia.eq_3 '#' cs hc, if_neg hb, if_pos rfl]
    exact ih.skipped
  case case6 =>
    intro c cs hc hb hh
    rw [skipTrivia.eq_3 c cs hc, if_neg hb, if_neg hh]
    exact ⟨.inl .nil, fun _ => .nil⟩
  case case7 => exact .inl ⟨List.not_mem_nil, rfl⟩
  case case8 =>
    intro cs ih
    rw [skipLineComment, if_pos rfl]
    exact .inr ⟨[], _, rfl, List.not_mem_nil, ih⟩
  case case9 =>
    intro c cs hc ih
    rw [skipLineComment, if_neg hc]
    exact ih.push hc
  case case10 =>
    intro p hp
    simp [skipBlockComment] at hp
  case case11 =>
    intro cs ih p hp
    rw [skipBlockComment] at hp
    obtain rfl := Option.some.inj hp
    exact ⟨[], _, rfl, by decide, ih⟩
  case case12 =>
    intro c cs hc ih p hp
    rw [skipBlockComment.eq_3 c cs hc] at hp
    obtain ⟨q, hq, rfl⟩ := Option.map_eq_some_iff.1 hp
    exact (ih q hq).push fun ds hstar hslash => hc ds hstar (skip_append.2.2 cs q hq ▸ hslash)

end Skipping

end Trivia

def lastStop (p : Position) (ls : List Lexeme) : Position :=
  (ls.getLast?.map (·.location.stop)).getD p

/-- The tokens of a source up to its end, with nothing but trivia before, between and behind them;
and each of them is read from its own text. -/
structure Tiling (source : String) (ls : List Lexeme) : Prop where
  nonempty : ∀ l ∈ ls, l.token ≠ .endOfInput → l.location.start.offset < l.location.stop.offset
  apart : ls.Pairwise fun l l' => l.location.stop.offset ≤ l'.location.start.offset
  ends : ∃ before e, ls = before ++ [e] ∧ (∀ l ∈ before, l.token ≠ .endOfInput)
    ∧ e.token = .endOfInput ∧ e.location.start.offset = source.utf8ByteSize
    ∧ e.location.stop.offset = source.utf8ByteSize
  between : ∀ before l after, ls = before ++ l :: after →
    let gap := (textBetween source (lastStop .origin before).offset l.location.start.offset).toList
    if l.token = .endOfInput then Final gap else Closed gap
  alone : ∀ l ∈ ls, l.token ≠ .endOfInput →
    let text := textBetween source l.location.start.offset l.location.stop.offset
    ∃ p, p.offset = text.utf8ByteSize
      ∧ readings text = [.ok ⟨l.token, ⟨.origin, p⟩, text.toList⟩, .ok ⟨.endOfInput, ⟨p, p⟩, []⟩]

section Tokens

variable {p : Position} {cs : List Char} {t : Token} {l : Lexeme} {before : List Lexeme}
  {more : List Reading}

theorem scan_before_skipped (h : (scan cs).outcome = .ok t) :
    if t = .endOfInput then Final (scan cs).before else Closed (scan cs).before := by
  obtain ⟨hfinal, hclosed⟩ := skip_skipped.1 cs
  have hout : (scanToken (skipTrivia cs).2).outcome = .ok t := h
  have hbefore (hb : (scanToken (skipTrivia cs).2).before = []) :
      (scan cs).before = (skipTrivia cs).1 := by
    rw [scan, hb, List.append_nil]
  split
  · next ht =>
    subst ht
    rw [hbefore (by rw [scanToken_end hout]; rfl)]
    exact hfinal
  · next ht =>
    have hrest : (skipTrivia cs).2 ≠ [] := by
      intro hnil
      rw [hnil] at hout
      exact ht (Except.ok.inj hout).symm
    have hnil : Follows (scanToken (skipTrivia cs).2).rest [] := .of_cut List.nil_prefix
    rw [hbefore (scanToken_follow hout ht hnil fun _ _ => rfl).1]
    exact hclosed hrest

/-- What a token is depends on nothing around its text. -/
theorem readingsFrom_text (h : (scan cs).outcome = .ok t) (hne : t ≠ .endOfInput) :
    readingsFrom p (scan cs).text = [.ok ⟨t, ⟨p, p.after (scan cs).text⟩, (scan cs).text⟩,
      .ok ⟨.endOfInput, ⟨p.after (scan cs).text, p.after (scan cs).text⟩, []⟩] := by
  have hnil : Follows (scan cs).rest [] := .of_cut List.nil_prefix
  have hscan := scan_text_follow h hne hnil fun _ _ => rfl
  rw [List.append_nil] at hscan
  have hmore : ¬ (scan (scan cs).text).atEnd = true := by
    rw [hscan]
    exact not_atEnd rfl hne
  rw [readingsFrom_more hmore, hscan, readingsFrom_atEnd rfl]
  rfl

theorem readingsFrom_behind (h : readingsFrom p cs = before.map .ok ++ .ok l :: more) :
    ∃ lead rest, cs = lead ++ rest ∧ lastStop p before = p.after lead
      ∧ readingsFrom (p.after lead) rest = .ok l :: more := by
  by_cases hbefore : before = []
  · subst hbefore
    exact ⟨[], cs, rfl, rfl, h⟩
  · obtain ⟨lead, mid, rest, hcs, -, -, hstop, hmore, -⟩ :=
      readingsFrom_stretch hbefore (readingsFrom_not_end h) h
    refine ⟨lead ++ mid, rest, by rw [hcs, List.append_assoc], ?_, ?_⟩
    · rw [lastStop, List.getLast?_eq_some_getLast hbefore, Position.after_append]
      exact hstop
    · rw [Position.after_append, hmore]

theorem readingsFrom_apart (p : Position) (cs : List Char) : (readingsFrom p cs).Pairwise
    fun r r' => r.location.stop.offset ≤ r'.location.start.offset := by
  fun_induction readingsFrom p cs with
  | case1 => exact List.pairwise_singleton _ _
  | case2 p cs s hmore ih =>
    refine List.pairwise_cons.2 ⟨fun r hr => ?_, ih⟩
    rw [reading_location]
    exact readingsFrom_start_le hr

end Tokens

section Sources

variable {source : String} {ls before after : List Lexeme} {l : Lexeme}

/-- A token in its source: the gap before it, its own text, and what follows. -/
theorem readings_split (h : readings source = ls.map .ok) (hls : ls = before ++ l :: after) :
    ∃ lead cs, source.toList = lead ++ cs ∧ lastStop .origin before = .after .origin lead
      ∧ (scan cs).outcome = .ok l.token
      ∧ l.location.start = (Position.origin.after lead).after (scan cs).before
      ∧ l.location.stop = l.location.start.after (scan cs).text := by
  rw [hls, List.map_append, List.map_cons] at h
  obtain ⟨lead, cs, hsource, hstop, hread⟩ := readingsFrom_behind h
  obtain ⟨hout, hlocation⟩ := readingsFrom_head hread
  exact ⟨lead, cs, hsource, hstop, hout, by rw [hlocation]; rfl, by rw [hlocation]; rfl⟩

theorem readings_texts (h : readings source = ls.map .ok) (hls : ls = before ++ l :: after) :
    ∃ cs, (scan cs).outcome = .ok l.token
      ∧ textBetween source (lastStop .origin before).offset l.location.start.offset
        = String.ofList (scan cs).before
      ∧ textBetween source l.location.start.offset l.location.stop.offset
        = String.ofList (scan cs).text := by
  obtain ⟨lead, cs, hsource, hlast, hout, hstart, hstop⟩ := readings_split h hls
  have hcut : source.toList = lead ++ ((scan cs).before ++ ((scan cs).text ++ (scan cs).rest)) :=
    hsource.trans (congrArg (lead ++ ·) (scan_append cs).symm)
  refine ⟨cs, hout, ?_, ?_⟩
  · rw [hlast, hstart]
    exact textBetween_after hcut
  · rw [hstop, hstart, ← Position.after_append]
    exact textBetween_after (hcut.trans (List.append_assoc _ _ _).symm)

/-- Trivia fills all that the tokens of a source leave. -/
theorem readings_tile (h : readings source = ls.map .ok) : Tiling source ls where
  nonempty l hl hne := by
    obtain ⟨before, after, hls⟩ := List.append_of_mem hl
    obtain ⟨lead, cs, -, -, hout, -, hstop⟩ := readings_split h hls
    rw [hstop]
    exact Position.offset_lt_after _ (scan_text_ne_nil hout hne)
  apart := by
    have hapart := readingsFrom_apart .origin source.toList
    rw [← readings, h, List.pairwise_map] at hapart
    exact hapart
  ends := by
    obtain ⟨before, e', hread, hend, hbefore⟩ := readingsFrom_eq .origin source.toList
    rw [← readings, h] at hread
    obtain ⟨front, back, rfl, rfl, hback⟩ := List.map_eq_append_iff.1 hread
    obtain ⟨e, tail, rfl, he, htail⟩ := List.map_eq_cons_iff.1 hback
    obtain rfl := List.map_eq_nil_iff.1 htail
    obtain rfl := Except.ok.inj he
    obtain ⟨lead, cs, hsource, -, hout, hstart, hstop⟩ := readings_split h rfl
    obtain ⟨htext, hrest⟩ := scan_end (atEnd_iff.2 (hend ▸ hout))
    have hcs : (scan cs).before = cs := by
      have hall := scan_append cs
      rwa [Scan.all, htext, hrest, List.append_nil, List.append_nil] at hall
    rw [hcs, ← Position.after_append, ← hsource] at hstart
    rw [htext, Position.after_nil] at hstop
    have hsize : e.location.start.offset = source.utf8ByteSize := by
      rw [hstart, Position.offset_origin_after, String.ofList_toList]
    exact ⟨front, e, rfl, fun l hl => hbefore l (List.mem_map_of_mem hl), hend, hsize,
      hstop ▸ hsize⟩
  between before l after hls := by
    obtain ⟨cs, hout, hgap, -⟩ := readings_texts h hls
    rw [hgap, String.toList_ofList]
    exact scan_before_skipped hout
  alone l hl hne := by
    obtain ⟨before, after, hls⟩ := List.append_of_mem hl
    obtain ⟨cs, hout, -, htext⟩ := readings_texts h hls
    dsimp only
    rw [htext, readings, String.toList_ofList]
    exact ⟨_, Position.offset_origin_after _, readingsFrom_text hout hne⟩

/-- The last comment is ended by the source alone. -/
theorem readings_tile_comments :
    let number : Lexeme := ⟨.number 1024 (some .kilo), ⟨⟨3, 2, 2⟩, ⟨5, 2, 4⟩⟩, ['1', 'K']⟩
    let literal : Lexeme := ⟨.string "" true, ⟨⟨9, 2, 8⟩, ⟨17, 4, 1⟩⟩, "text:\n.\n".toList⟩
    let ls := [number, literal, ⟨.endOfInput, ⟨⟨18, 4, 2⟩, ⟨18, 4, 2⟩⟩, []⟩]
    readings "#\n 1K/**/text:\n.\n#" = ls.map .ok ∧ Tiling "#\n 1K/**/text:\n.\n#" ls := by
  intro number literal ls
  have h : readings "#\n 1K/**/text:\n.\n#" = ls.map .ok := by decide +kernel
  exact ⟨h, readings_tile h⟩

end Sources

end MailSieve
