import MailSieve.Proofs.Lexing.Tiled

/-! A mark that is blanked out.
Where a blank stands in place of a mark, the trivia around the mark is all one gap. The tokens
before it and behind it are read as they were, each in its place; only the mark is missing. -/

namespace MailSieve

open Trivia

namespace Trivia

theorem Closed.append {cs ds : List Char} (h : Closed cs) (k : Closed ds) : Closed (cs ++ ds) := by
  induction h with
  | nil => exact k
  | blank hc _ ih => exact .blank hc ih
  | line hbody _ ih =>
    rw [List.append_assoc, List.cons_append]
    exact .line hbody ih
  | bracketed hbody _ ih =>
    rw [List.append_assoc, List.cons_append, List.cons_append]
    exact .bracketed hbody ih

end Trivia

/-- The source with a blank in place of the byte before `stop`. -/
def blanked (source : String) (stop : Nat) : String :=
  textBetween source 0 (stop - 1) ++ " " ++ textBetween source stop source.utf8ByteSize

section Readings

variable {p : Position} {cs text : List Char} {m : Punctuation} {ls : List Lexeme} {l : Lexeme}
  {more : List Reading}

theorem Punctuation.char_of_ofChar? {c : Char} (h : Punctuation.ofChar? c = some m) :
    m.char = c := by
  simpa using List.find?_some h

theorem scan_mark_text (h : (scan cs).outcome = .ok (.mark m)) : (scan cs).text = [m.char] := by
  have hout : (scanToken (skipTrivia cs).2).outcome = .ok (.mark m) := h
  change (scanToken (skipTrivia cs).2).text = _
  cases hds : (skipTrivia cs).2 with
  | nil =>
    rw [hds] at hout
    cases hout
  | cons c ds =>
    rw [hds] at hout
    cases tokenAt_of_outcome hout with
    | mark hc => rw [scanToken_mark hc, Punctuation.char_of_ofChar? hc]

theorem readingsFrom_trivia (h : Closed text) :
    readingsFrom p (text ++ cs) = readingsFrom (p.after text) cs := by
  have hscan : scan (text ++ cs) = { scan cs with before := text ++ (scan cs).before } := by
    rw [scan, h.skip]
    simp only [scan, List.append_assoc]
  have hlocate : (scan (text ++ cs)).locate p = (scan cs).locate (p.after text) := by
    rw [hscan, Scan.locate, Scan.locate, Position.after_append]
  have hreading : (scan (text ++ cs)).reading p = (scan cs).reading (p.after text) := by
    rw [Scan.reading, Scan.reading, hlocate, hscan]
  by_cases hend : (scan cs).atEnd = true
  · rw [readingsFrom_atEnd hend, readingsFrom_atEnd (by rw [hscan]; exact hend), hreading]
  · rw [readingsFrom_more hend, readingsFrom_more (by rw [hscan]; exact hend), hreading, hlocate,
      hscan]

theorem Position.after_blanked (p : Position) (cs : List Char) :
    p.after (cs ++ [' ']) = p.after (cs ++ [';']) := by
  rw [Position.after_append, Position.after_append]
  rfl

theorem blanked_after {source : String} {lead rest : List Char}
    (h : source.toList = lead ++ ';' :: rest) :
    textBetween source ((Position.origin.after (lead ++ [';'])).offset - 1)
        (Position.origin.after (lead ++ [';'])).offset = ";"
      ∧ blanked source (Position.origin.after (lead ++ [';'])).offset
        = String.ofList (lead ++ ' ' :: rest) := by
  have hstart : (Position.origin.after (lead ++ [';'])).offset - 1
      = (Position.origin.after lead).offset := by
    rw [Position.after_append, Position.after_cons, Position.after_nil, Position.offset_next]
    rfl
  have hbehind : source.toList = (lead ++ [';']) ++ rest := by
    rw [h, List.append_assoc]
    rfl
  constructor
  · rw [hstart, Position.after_append]
    exact textBetween_after h
  · rw [blanked, hstart, textBetween_before h, textBetween_behind hbehind, String.append_assoc,
      String.ofList_append, String.ofList_cons]
    rfl

/-- A semicolon that is blanked out is the only token that goes. -/
theorem readingsFrom_blanked (h : readingsFrom p cs = ls.map .ok ++ .ok l :: more)
    (hl : l.token = .mark .semicolon) :
    ∃ lead rest, cs = lead ++ ';' :: rest ∧ l.location.stop = p.after (lead ++ [';'])
      ∧ more = readingsFrom l.location.stop rest
      ∧ readingsFrom p (lead ++ ' ' :: rest) = ls.map .ok ++ more := by
  have hne : l.token ≠ .endOfInput := by
    rw [hl]
    exact nofun
  induction ls generalizing p cs with
  | nil =>
    obtain ⟨hout, hlocation⟩ := readingsFrom_head h
    have hmore := readingsFrom_tail h hne
    have htext : (scan cs).text = [';'] := scan_mark_text (hl ▸ hout)
    have hclosed : Closed ((scan cs).before ++ [' ']) := by
      have hbefore := scan_before_skipped hout
      rw [if_neg hne] at hbefore
      exact hbefore.append (.blank rfl .nil)
    have hstop : l.location.stop = p.after ((scan cs).before ++ [';']) := by
      rw [hlocation, Scan.locate, htext, Position.after_append]
    have hgap : p.after ((scan cs).before ++ [' ']) = l.location.stop :=
      (Position.after_blanked p _).trans hstop.symm
    refine ⟨(scan cs).before, (scan cs).rest, ?_, hstop, hmore.symm, ?_⟩
    · have hall := scan_append cs
      rw [Scan.all, htext] at hall
      exact hall.symm
    · rw [← List.singleton_append, ← List.append_assoc, readingsFrom_trivia hclosed, hgap, hmore]
      rfl
  | cons k ls ih =>
    obtain ⟨-, hlocation⟩ := readingsFrom_head h
    have hk : k.token ≠ .endOfInput := readingsFrom_not_end h k List.mem_cons_self
    obtain ⟨lead, rest, hcs, hstop, hbehind, hblanked⟩ := ih (readingsFrom_tail h hk)
    -- The token before is read alike, since what follows it begins alike or with the blank.
    have hfollows : Follows (scan cs).rest (lead ++ ' ' :: rest) := by
      rw [hcs]
      cases lead with
      | nil =>
        refine .of_bounded ?_
        rintro _ ⟨⟩
        decide
      | cons c lead => exact .append (List.cons_ne_nil c lead)
    have hends : k.token.Ends (scan cs).rest (lead ++ ' ' :: rest) := by
      intro _ hnil
      rw [hcs] at hnil
      simp at hnil
    refine ⟨(scan cs).before ++ ((scan cs).text ++ lead), rest, scan_split hcs, ?_, hbehind, ?_⟩
    · rw [hstop, hlocation, List.append_assoc, List.append_assoc, after_scan_split]
    · rw [List.append_assoc, List.append_assoc, readingsFrom_follow h hk hfollows hends, hblanked]
      rfl

end Readings

end MailSieve
