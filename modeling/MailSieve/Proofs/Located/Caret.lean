import MailSieve.Proofs.Lexing.Resumed
import MailSieve.Proofs.Located.Place

/-! The source line under which a report draws its carets.
Places are counted while the source is read, line feed by line feed. The line that is shown is
looked up afterwards, in a text cut at its line breaks, where a carriage return goes with the line
feed behind it and an empty last line is none. Both agree on the line and on the character, as no
report begins between the two characters of a line break. -/

namespace MailSieve

open Text Trivia

namespace Text

variable {above line cs : List Char} {c : Char}

theorem linesOf_append {ss ts : List (List Char)} (hne : ts ≠ []) :
    linesOf (ss ++ ts) = ss.map (stripEnd '\r') ++ linesOf ts := by
  induction ss with
  | nil => rfl
  | cons s ss ih =>
    have hmore : ss ++ ts ≠ [] := List.append_ne_nil_of_right_ne_nil ss hne
    obtain ⟨t, more, hmore⟩ := List.exists_cons_of_ne_nil hmore
    rw [List.cons_append, hmore, linesOf, ← hmore, ih]
    rfl

theorem lines_append_newline (cs ds : List Char) :
    lines (cs ++ '\n' :: ds) = (segments cs).map (stripEnd '\r') ++ lines ds := by
  rw [lines, segments_append_newline, linesOf_append (segments_ne_nil ds), lines]

theorem length_segments (cs : List Char) : (segments cs).length = cs.count '\n' + 1 := by
  induction cs with
  | nil => rfl
  | cons c cs ih =>
    obtain ⟨t, ts, hs⟩ := List.exists_cons_of_ne_nil (segments_ne_nil cs)
    rw [hs] at ih
    rw [segments]
    by_cases hc : c = '\n'
    · rw [if_pos hc, hs, hc, List.count_cons_self, ← ih]
      rfl
    · rw [if_neg hc, hs, List.count_cons_of_ne hc, ← ih]
      rfl

theorem lines_getElem?_count (h : above = [] ∨ above.getLast? = some '\n') (cs : List Char) :
    (lines (above ++ cs))[above.count '\n']? = (lines cs).head? := by
  obtain rfl | hlast := h
  · exact List.head?_eq_getElem?.symm
  · have hconcat : above.dropLast ++ ['\n'] = above := List.dropLast_append_getLast? _ hlast
    have hlength : above.count '\n' = (segments above.dropLast).length := by
      rw [length_segments, ← hconcat, List.count_append, List.dropLast_concat]
      rfl
    rw [hlength, ← hconcat, List.append_assoc, List.dropLast_concat, List.singleton_append,
      lines_append_newline, List.getElem?_append_right (by simp), List.length_map, Nat.sub_self,
      List.head?_eq_getElem?]

theorem lines_last (h : '\n' ∉ line) : ((lines line).head?).getD [] = line := by
  rw [lines, segments_of_not_mem h, linesOf]
  split
  · next hnil => exact hnil.symm
  · rfl

theorem lines_first (h : '\n' ∉ line) (cs : List Char) :
    ((lines (line ++ '\n' :: cs)).head?).getD [] = stripEnd '\r' line := by
  rw [lines_append_newline, segments_of_not_mem h]
  rfl

theorem stripEnd_cases (c : Char) (cs : List Char) :
    (cs.getLast? ≠ some c ∧ stripEnd c cs = cs) ∨ cs = stripEnd c cs ++ [c] := by
  rw [stripEnd]
  split
  · next h => exact .inr (List.dropLast_append_getLast? c h).symm
  · next h => exact .inl ⟨h, rfl⟩

theorem rdropWhile_break (cs : List Char) : cs.rdropWhile (· ≠ '\n') = []
    ∨ (cs.rdropWhile (· ≠ '\n')).getLast? = some '\n' := by
  by_cases hnil : cs.rdropWhile (· ≠ '\n') = []
  · exact .inl hnil
  · have hstop := List.rdropWhile_last_not _ cs hnil
    rw [List.getLast?_eq_some_getLast hnil]
    exact .inr (by simpa using hstop)

theorem dropWhile_break (cs : List Char) :
    cs.dropWhile (· ≠ '\n') = [] ∨ ∃ below, cs.dropWhile (· ≠ '\n') = '\n' :: below := by
  cases hmore : cs.dropWhile (· ≠ '\n') with
  | nil => exact .inl rfl
  | cons c below =>
    have hhead : c ∈ (cs.dropWhile (· ≠ '\n')).head? := by
      rw [hmore]
      rfl
    have hstop : decide (c ≠ '\n') = false := not_of_head_dropWhile hhead
    rw [not_not.1 (of_decide_eq_false hstop)]
    exact .inr ⟨below, rfl⟩

end Text

section Breaks

variable {cs lead rest : List Char}

theorem TextBlock.head_of_noBreak (h : scanTextBlock cs = .noBreak lead rest) :
    rest.head? ≠ some '\n' := by
  rw [scanTextBlock] at h
  split at h
  · rw [scanBody] at h
    split at h <;> cases h
  · rw [scanBody] at h
    split at h <;> cases h
  · next hlf =>
    cases h
    intro hhead
    obtain ⟨body, hbody⟩ := List.head?_eq_some_iff.1 hhead
    exact hlf body hbody

theorem scanWord_break (h : ((scanWord cs).text ++ (scanWord cs).rest).head? = some '\n') :
    (scanWord cs).before = [] := by
  obtain hplain | ⟨rest, -, -, htext⟩ := scanWord_cases cs
  · rw [hplain]
  · rw [htext, scanTextBlockToken] at h ⊢
    cases hr : TextBlock.scanTextBlock rest with
    | noBreak lead more =>
      rw [hr] at h
      exact absurd h (TextBlock.head_of_noBreak hr)
    | unclosed text => rfl
    | closed value text more => rfl

/-- The only text that is passed over right before a line feed is a lone colon. -/
theorem scanToken_break (h : ((scanToken cs).text ++ (scanToken cs).rest).head? = some '\n') :
    (scanToken cs).before = [] ∨ (scanToken cs).before = [':'] := by
  cases cs with
  | nil => exact .inl rfl
  | cons c cs =>
    cases hp : Punctuation.ofChar? c with
    | some p =>
      rw [scanToken_mark hp]
      exact .inl rfl
    | none =>
      rw [scanToken_other hp] at h ⊢
      split_ifs at h ⊢
      · rw [scanString] at h ⊢
        cases hr : Quoted.scanQuoted cs with
        | closed value text rest => exact .inl rfl
        | unclosed text rest => exact .inl rfl
        | badEscape lead c rest =>
          rw [hr] at h
          cases h
      · rw [scanTag.eq_def]
        split
        · exact .inr rfl
        · split
          · exact .inl rfl
          · exact .inr rfl
      · exact .inl (scanNumber_before _)
      · exact .inl (scanWord_break h)
      · exact .inl rfl
      · exact .inl rfl

theorem scan_break (h : ((scan cs).text ++ (scan cs).rest).head? = some '\n') :
    (scan cs).before.getLast? = some ':' := by
  have htoken := scanToken_break h
  obtain hnil | hcolon := htoken
  · -- The line feed would be trivia, and all of that has been skipped.
    have hall := scanToken_append (skipTrivia cs).2
    rw [Scan.all, hnil, List.nil_append] at hall
    have hagain := skipTrivia_again cs
    obtain ⟨more, hmore⟩ := List.head?_eq_some_iff.1 (hall ▸ h)
    rw [hmore, skipTrivia] at hagain
    · cases congrArg Prod.fst hagain
    · intro _ hslash
      cases hslash
  · rw [scan, hcolon, List.getLast?_append]
    rfl

end Breaks

/-- A stretch of the source, and that it begins inside of no line break. -/
structure Stretch (source : String) (l : Location) (lead mid rest : List Char) : Prop where
  source : source.toList = lead ++ (mid ++ rest)
  location : l = ⟨.after .origin lead, (Position.origin.after lead).after mid⟩
  whole : (mid ++ rest).head? = some '\n' → lead.getLast? ≠ some '\r'

theorem Scanner.At.stretch {source : String} {s : Scanner} (h : s.At source) :
    ∃ lead mid rest, Stretch source s.read.location lead mid rest := by
  obtain ⟨lead, hsource, hplace⟩ := h
  refine ⟨lead ++ (scan s.rest).before, (scan s.rest).text, (scan s.rest).rest, ?_, ?_, ?_⟩
  · rw [hsource, List.append_assoc]
    exact congrArg (lead ++ ·) (scan_append s.rest).symm
  · rw [read, reading_location, hplace, Scan.locate, Position.after_append]
  · intro hbreak
    rw [List.getLast?_append, scan_break hbreak, Option.some_or, ne_eq, Option.some_inj]
    decide

theorem readings_stretch {source : String} {r : Reading} (h : r ∈ readings source) :
    ∃ lead mid rest, Stretch source r.location lead mid rest := by
  obtain ⟨n, rfl⟩ := Scanner.exists_read h
  exact (Scanner.at_after source n).stretch

theorem Position.column_after {cs : List Char} (h : '\n' ∉ cs) (p : Position) :
    (p.after cs).column = p.column + cs.length := by
  induction cs generalizing p with
  | nil => rfl
  | cons c cs ih =>
    rw [List.mem_cons, not_or] at h
    rw [after_cons, ih h.2, next, if_neg (Ne.symm h.1), List.length_cons]
    dsimp only
    omega

/-- What ends a line: a line feed, together with a carriage return before it, or the end of the
source. -/
inductive LineEnd (line : List Char) : List Char → List Char → Prop where
  | lineFeed {below : List Char} : line.getLast? ≠ some '\r' → LineEnd line ['\n'] below
  | pair {below : List Char} : LineEnd line ['\r', '\n'] below
  | source : LineEnd line [] []

/-- `line` is the line of the source that holds byte `offset`, and that byte begins its character at
`index`, or stands right behind its last one. -/
def LineAt (source : String) (offset : Nat) (line : List Char) (index : Nat) : Prop :=
  ∃ above ending below, source.toList = above ++ (line ++ (ending ++ below))
    ∧ (above = [] ∨ above.getLast? = some '\n') ∧ '\n' ∉ line ∧ LineEnd line ending below
    ∧ index ≤ line.length ∧ offset = (String.ofList (above ++ line.take index)).utf8ByteSize

theorem LineAt.one {source : String} {offset index : Nat} {line : List Char}
    (h : LineAt source offset line index) : '\n' ∉ line := by
  obtain ⟨above, ending, below, -, -, hone, -⟩ := h
  exact hone

/-- How much of a text is underlined: all of a text on one line, if there is any, else one
character. -/
def underlined (text : List Char) : Nat := if '\n' ∉ text ∧ text ≠ [] then text.length else 1

/-- The last two lines of what is drawn: the numbered line in which the place begins, and under that
place the carets for its text. -/
def Diagnostic.PointsAt (source origin : String) (d : Diagnostic) : Prop :=
  ∃ line index, LineAt source d.location.start.offset line index ∧ ∃ above gutter pad,
    segments (d.render source origin).toList = above ++ [gutter ++ line,
      pad ++ List.replicate
        (underlined (textBetween source d.location.start.offset d.location.stop.offset).toList) '^']
    ∧ gutter = decimal (1 + (textBefore source d.location.start.offset).count '\n')
      ++ " | ".toList
    ∧ '^' ∉ pad ∧ pad.length = gutter.length + index

namespace Stretch

variable {source : String} {l : Location} {lead mid rest : List Char}

theorem start_offset (h : Stretch source l lead mid rest) :
    l.start.offset = (String.ofList lead).utf8ByteSize := by
  rw [h.location, Position.offset_origin_after]

theorem start_line (h : Stretch source l lead mid rest) : l.start.line = 1 + lead.count '\n' := by
  rw [h.location, Position.line_after]
  rfl

theorem lineAt {d : Diagnostic} (h : Stretch source d.location lead mid rest) :
    LineAt source d.location.start.offset (d.sourceLine source.toList) (d.column - 1) := by
  obtain ⟨above, last, hlead, habove, hlast, hcolumn⟩ : ∃ above last, lead = above ++ last
      ∧ (above = [] ∨ above.getLast? = some '\n') ∧ '\n' ∉ last
      ∧ d.column - 1 = last.length := by
    refine ⟨_, _, List.rdropWhile_append_rtakeWhile.symm, rdropWhile_break lead, ?_, ?_⟩
    · exact fun hmem => by simpa using List.mem_rtakeWhile_imp hmem
    · rw [Diagnostic.column, h.location, Position.column_after_origin, Nat.add_sub_cancel_left]
  obtain ⟨first, more, htail, hfirst, hmore⟩ : ∃ first more, mid ++ rest = first ++ more
      ∧ '\n' ∉ first ∧ (more = [] ∨ ∃ below, more = '\n' :: below) := by
    refine ⟨_, _, List.takeWhile_append_dropWhile.symm, ?_, dropWhile_break (mid ++ rest)⟩
    exact fun hmem => by simpa using List.mem_takeWhile_imp hmem
  have hline : '\n' ∉ last ++ first := by simp [hlast, hfirst]
  have hsource : source.toList = above ++ ((last ++ first) ++ more) := by
    rw [h.source, hlead, htail, List.append_assoc, List.append_assoc]
  have hcount : d.line - 1 = above.count '\n' := by
    rw [Diagnostic.line, h.start_line, hlead, List.count_append, List.count_eq_zero.2 hlast]
    omega
  have hshown : d.sourceLine source.toList = ((lines (last ++ first ++ more)).head?).getD [] := by
    rw [Diagnostic.sourceLine, hcount, hsource, lines_getElem?_count habove]
  rw [hcolumn, h.start_offset, hshown]
  obtain rfl | ⟨below, rfl⟩ := hmore
  · rw [List.append_nil, lines_last hline]
    refine ⟨above, [], [], hsource, habove, hline, .source, by simp, ?_⟩
    rw [List.take_left, hlead]
  · rw [lines_first hline]
    obtain ⟨hcr, hstrip⟩ | hstrip := stripEnd_cases '\r' (last ++ first)
    · rw [hstrip]
      refine ⟨above, ['\n'], below, hsource, habove, hline, .lineFeed hcr, by simp, ?_⟩
      rw [List.take_left, hlead]
    · generalize stripEnd '\r' (last ++ first) = line at hstrip ⊢
      have hindex : last.length ≤ line.length := by
        have hlength := congrArg List.length hstrip
        rw [List.length_append, List.length_append, List.length_singleton] at hlength
        have hne : first ≠ [] := by
          rintro rfl
          refine h.whole (by rw [htail]; rfl) ?_
          rw [hlead, ← List.append_nil last, hstrip, List.getLast?_append, List.getLast?_append]
          rfl
        have hpos := List.length_pos_iff.2 hne
        omega
      have htake : line.take last.length = last := by
        rw [← List.take_append_of_le_length hindex, ← hstrip, List.take_left]
      refine ⟨above, ['\r', '\n'], below, ?_, habove, ?_, .pair, hindex, ?_⟩
      · rw [hsource, hstrip, List.append_assoc line]
        rfl
      · exact fun hmem => hline (hstrip ▸ List.mem_append_left _ hmem)
      · rw [htake, hlead]

theorem caretCount {d : Diagnostic} (h : Stretch source d.location lead mid rest) :
    d.caretCount = underlined mid := by
  have hline : d.location.stop.line = d.line + mid.count '\n' := by
    rw [Diagnostic.line, h.location, Position.line_after]
  rw [Diagnostic.caretCount, hline, underlined]
  by_cases hmid : '\n' ∈ mid
  · have hpos := List.count_pos_iff.2 hmid
    rw [if_neg (by omega), if_neg fun hone => hone.1 hmid]
  · have hcolumn : d.location.stop.column = d.column + mid.length := by
      rw [Diagnostic.column, h.location, Position.column_after hmid]
    rw [List.count_eq_zero.2 hmid, Nat.add_zero, if_pos rfl, hcolumn, Nat.add_sub_cancel_left]
    by_cases hnil : mid = []
    · rw [if_neg fun hone => hone.2 hnil, hnil]
      rfl
    · have hpos := List.length_pos_iff.2 hnil
      rw [if_pos ⟨hmid, hnil⟩, Nat.max_eq_left hpos]

end Stretch

namespace Diagnostic

variable {d : Diagnostic} {source : String} {lead mid rest : List Char}

theorem segments_render (h : '\n' ∉ d.sourceLine source.toList) (origin : String) : ∃ above,
    segments (d.render source origin).toList
      = above ++ [decimal d.line ++ " | ".toList ++ d.sourceLine source.toList,
        List.replicate (decimal d.line).length ' ' ++ " | ".toList
          ++ List.replicate (d.column - 1) ' ' ++ List.replicate d.caretCount '^'] := by
  have hnumber : '\n' ∉ decimal d.line := fun hmem => by cases isDigit_of_decimal _ hmem
  refine ⟨segments (joinSegments ((d.renderLines source.toList origin.toList).take 3)), ?_⟩
  rw [render, String.toList_ofList]
  change segments (joinSegments ([_, _] ++ _ :: _ :: [_])) = _
  rw [TextBlock.joinSegments_append_cons, segments_append_newline,
    segments_joinSegments (List.cons_ne_nil _ _)]
  · rfl
  · simp [hnumber, h]

theorem pointsAt (h : Stretch source d.location lead mid rest) (origin : String) :
    d.PointsAt source origin := by
  have hline := h.lineAt
  have hone : '\n' ∉ d.sourceLine source.toList := hline.one
  obtain ⟨above, hrender⟩ := d.segments_render hone origin
  have hnumber : 1 + (textBefore source d.location.start.offset).count '\n' = d.line := by
    rw [Diagnostic.line, h.start_line, h.location, textBefore_after h.source]
  have htext :
      (textBetween source d.location.start.offset d.location.stop.offset).toList = mid := by
    rw [h.location, textBetween_after h.source, String.toList_ofList]
  refine ⟨d.sourceLine source.toList, d.column - 1, hline, above, decimal d.line ++ " | ".toList,
    List.replicate (decimal d.line).length ' ' ++ " | ".toList ++ List.replicate (d.column - 1) ' ',
    ?_, by rw [hnumber], by simp, ?_⟩
  · rw [htext, ← h.caretCount]
    exact hrender
  · rw [List.length_append, List.length_append, List.length_append, List.length_replicate,
      List.length_replicate]

end Diagnostic

namespace Script

variable {o : ParseOptions} {source : String} {f : Fault}

/-- The carets under a report on a source that is no script stand under the text it is about. -/
theorem parse_pointsAt (h : parse o source = .error f) (origin : String) :
    f.diagnostic.PointsAt source origin := by
  obtain ⟨r, hr, hlocation⟩ := (parse_cites h).location
  obtain ⟨lead, mid, rest, hstretch⟩ := readings_stretch hr
  exact Diagnostic.pointsAt (hlocation ▸ hstretch) origin

/-- On a second line, behind a character of two bytes. -/
theorem parse_pointsAt_second_line :
    let source := "keep;\r\nreject \"é\"; keep :foo;"
    ∃ f, parse .standard source = .error f ∧ f.diagnostic.PointsAt source "rules.sieve" := by
  intro source
  have h : parse .standard source = .error
      (.unknownTag "foo" ⟨⟨25, 2, 18⟩, ⟨29, 2, 22⟩⟩ ":foo" ["flags"]) := by decide +kernel
  exact ⟨_, h, parse_pointsAt h _⟩

end Script

end MailSieve
