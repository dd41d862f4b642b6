import MailSieve.Proofs.Lexing.Strings
import MailSieve.Proofs.Located.Place

/-! The text that a report finds.
Every token is cut out of the source as it stands. A word is the name that it denotes, while a
string is always longer than its value, so a report that repeats the value of a string does not
repeat its text. -/

namespace MailSieve

open Text

namespace Token

/-- How the text of a token relates to what the token says. -/
def WrittenAs (text : List Char) : Token → Prop
  | word name => text = name.toList
  | string value _ => value.toList.length < text.length
  | _ => True

end Token

section Written

variable {cs value text rest : List Char}

namespace TextBlock

theorem length_unstuffLine_le (l : List Char) : (unstuffLine l).length ≤ l.length := by
  rw [unstuffLine.eq_def]
  split
  · exact Nat.le_succ _
  · exact Nat.le_refl _

theorem length_unstuffed_le (lines : List (List Char)) :
    (joinSegments (lines.map unstuffLine)).length ≤ (joinSegments lines).length := by
  induction lines with
  | nil => exact Nat.le_refl _
  | cons l lines ih =>
    have hl := length_unstuffLine_le l
    cases lines with
    | nil => simpa [joinSegments, List.intercalate] using hl
    | cons m lines =>
      rw [List.map_cons] at ih
      rw [List.map_cons, List.map_cons, joinSegments_cons, joinSegments_cons]
      simp only [List.length_append, List.length_cons]
      omega

theorem length_valueOf_le (crlf : Bool) (lines : List (List Char)) :
    (valueOf crlf lines).length ≤ (joinSegments lines).length := by
  refine Nat.le_trans ?_ (length_unstuffed_le lines)
  cases crlf with
  | false => exact Nat.le_refl _
  | true =>
    rw [valueOf, if_pos rfl, stripEnd]
    split
    · exact (List.dropLast_sublist _).length_le
    · exact Nat.le_refl _

theorem length_lines_le (lines : List (List Char)) (dot : List Char) :
    (joinSegments lines).length ≤ (joinSegments (lines ++ [dot])).length := by
  obtain rfl | ⟨init, l, rfl⟩ := lines.eq_nil_or_concat
  · exact Nat.zero_le _
  · rw [List.concat_eq_append, List.append_assoc, List.singleton_append,
      joinSegments_append_cons, List.length_append]
    exact Nat.le_add_right _ _

theorem length_value_le (h : scanTextBlock cs = .closed value text rest) :
    value.length ≤ text.length := by
  have hbody (crlf : Bool) (lead tail dot : List Char) (lines : List (List Char)) :
      (valueOf crlf lines).length ≤ (lead ++ joinSegments (lines ++ [dot]) ++ tail).length := by
    have hvalue := length_valueOf_le crlf lines
    have hlines := length_lines_le lines dot
    simp only [List.length_append]
    omega
  obtain ⟨crlf, lf, body, hscan, -⟩ | ⟨hscan, -⟩ := scanned_cuts cs
  · rw [hscan, scanBody] at h
    split at h
    · cases h
    · cases h
      simpa only [List.append_nil] using hbody crlf _ [] _ _
    · cases h
      exact hbody _ _ _ _ _
  · rw [hscan] at h
    cases h

end TextBlock

theorem Quoted.length_le_quote (cs : List Char) : cs.length ≤ (quote cs).length := by
  induction cs with
  | nil => exact Nat.le_refl _
  | cons c cs ih =>
    rw [quote]
    split <;> simp only [List.length_cons] <;> omega

def Scan.Written (s : Scan) : Prop := ∀ t, s.outcome = .ok t → t.WrittenAs s.text

theorem scanTextBlockToken_written (word : List Char) :
    (scanTextBlockToken word cs).Written := by
  intro t h
  rw [scanTextBlockToken] at h ⊢
  cases hr : TextBlock.scanTextBlock cs with
  | noBreak | unclosed =>
    rw [hr] at h
    cases h
  | closed value text rest =>
    rw [hr] at h
    cases h
    have hle := TextBlock.length_value_le hr
    simp only [Token.WrittenAs, String.toList_ofList, List.length_append, List.length_cons]
    omega

theorem scanWord_written (cs : List Char) : (scanWord cs).Written := by
  obtain hplain | ⟨rest, -, -, htext⟩ := scanWord_cases cs
  · rw [hplain]
    rintro _ ⟨⟩
    exact (String.toList_ofList ..).symm
  · rw [htext]
    exact scanTextBlockToken_written _

theorem scanString_written (cs : List Char) : (scanString cs).Written := by
  intro t h
  rw [scanString] at h ⊢
  cases hr : Quoted.scanQuoted cs with
  | badEscape | unclosed =>
    rw [hr] at h
    cases h
  | closed value text rest =>
    rw [hr] at h
    cases h
    have hle := Quoted.length_le_quote value
    simp only [Token.WrittenAs, String.toList_ofList, Quoted.text_of_closed hr, List.length_append,
      List.length_cons]
    omega

theorem scanTag_written (cs : List Char) : (scanTag cs).Written := by
  intro t h
  rw [scanTag.eq_def] at h
  split at h
  · cases h
  · split at h <;> cases h
    trivial

theorem scanNumber_written (cs : List Char) : (scanNumber cs).Written := by
  have hout {digits : List Char} {q : Option Quantifier} {t : Token} {text : List Char}
      (h : numberOutcome digits q = .ok t) : t.WrittenAs text := by
    rw [numberOutcome] at h
    split at h <;> cases h
    trivial
  intro t h
  rw [scanNumber] at h
  split at h
  · exact hout h
  · split at h <;> exact hout h

theorem scanToken_written (cs : List Char) : (scanToken cs).Written := by
  cases cs with
  | nil =>
    rintro _ ⟨⟩
    trivial
  | cons c cs =>
    cases hp : Punctuation.ofChar? c with
    | some p =>
      rw [scanToken_mark hp]
      rintro _ ⟨⟩
      trivial
    | none =>
      rw [scanToken_other hp]
      split_ifs
      · exact scanString_written cs
      · exact scanTag_written cs
      · exact scanNumber_written _
      · exact scanWord_written _
      · exact nofun
      · exact nofun

end Written

/-- A token of a source stands where its text does, and only the end of the input stands at the end
of the source. -/
structure Lexeme.Stands (source : String) (l : Lexeme) : Prop where
  text : l.found = textBetween source l.location.start.offset l.location.stop.offset
  atEnd : l.token = .endOfInput ↔ l.location.start.offset = source.utf8ByteSize
  written : l.token.WrittenAs l.text

namespace Scanner

theorem At.stands {source : String} {s : Scanner} {l : Lexeme} (h : s.At source)
    (hread : s.read = .ok l) : l.Stands source := by
  have hlocation := location_of_reading hread
  have htext : l.text = (scan s.rest).text := by
    rw [read, Scan.reading] at hread
    split at hread <;> cases hread
    rfl
  have hslice := h.slice (scan_in s.rest)
  refine ⟨?_, ⟨fun hend => ?_, fun hstart => ?_⟩, ?_⟩
  · rw [Lexeme.found, htext, hlocation]
    exact hslice.2.symm
  · have hdone : s.Done := ⟨l, hread, hend⟩
    have hempty : (scan s.rest).text = [] := (scan_end (done_iff.1 hdone)).1
    have hoffset := h.done_offset hdone
    rw [next_place, Scan.locate, hempty] at hoffset
    rw [hlocation]
    exact hoffset
  · by_contra hne
    have hforward := reading_forward hread hne
    have hle := hslice.1.2.offset_le
    rw [hlocation] at hforward hstart
    rw [hstart] at hforward
    exact absurd hforward (Nat.not_lt.2 hle)
  · have hout : (scan s.rest).outcome = .ok l.token := reading_ok hread
    rw [htext]
    exact scanToken_written _ _ hout

end Scanner

theorem readings_stand {source : String} {l : Lexeme} (h : .ok l ∈ readings source) :
    l.Stands source := by
  obtain ⟨n, hread⟩ := Scanner.exists_read h
  exact (Scanner.at_after source n).stands hread

namespace Diagnostic

/-- What was found is the text in the place reported, and nothing at the end of the source. -/
structure Quotes (source : String) (d : Diagnostic) : Prop where
  atEnd : d.found = none ↔ d.location.start.offset = source.utf8ByteSize
  text : d.location.start.offset ≠ source.utf8ByteSize →
    d.found = some (textBetween source d.location.start.offset d.location.stop.offset)

variable {source : String} {d : Diagnostic} {l : Lexeme}

theorem quotes_of_found (h : l.Stands source) (hl : l.token ≠ .endOfInput)
    (hlocation : d.location = l.location) (hfound : d.found = some l.found) :
    d.Quotes source where
  atEnd := by
    rw [hlocation, hfound, ← h.atEnd]
    simpa using hl
  text _ := by rw [hlocation, hfound, h.text]

theorem quotes_of_end (h : l.Stands source) (hl : l.token = .endOfInput)
    (hlocation : d.location = l.location) (hfound : d.found = none) : d.Quotes source where
  atEnd := by
    rw [hlocation, hfound, ← h.atEnd]
    exact iff_of_true rfl hl
  text hne := absurd (h.atEnd.1 hl) (hlocation ▸ hne)

end Diagnostic

namespace Fault

/-- Causes that are reported with something else: with the value of a string in place of its text,
or with an empty text where the limit is passed at the end of the source. -/
def Misquotes (source : String) : Fault → Prop
  | badOperator _ _ | badImportance _ _ => True
  | tooDeep _ location _ => location.start.offset = source.utf8ByteSize
  | _ => False

variable {source : String} {l : Lexeme} {value : String} {multiline : Bool}

theorem not_quotes_value {d : Diagnostic} (h : l.Stands source)
    (ht : l.token = .string value multiline) (hlocation : d.location = l.location)
    (hfound : d.found = some value) : ¬ d.Quotes source := by
  intro hq
  have hne : l.token ≠ .endOfInput := by rw [ht]; exact nofun
  have htext := hq.text (hlocation ▸ mt h.atEnd.2 hne)
  rw [hlocation, hfound, ← h.text, Option.some.injEq] at htext
  have hlt := h.written
  rw [ht, Token.WrittenAs, htext, Lexeme.found, String.toList_ofList] at hlt
  exact absurd hlt (Nat.lt_irrefl _)

end Fault

namespace Script

variable {o : ParseOptions} {source : String} {f : Fault}

/-- A syntax report shows the source text that it points at, but for the causes above. -/
theorem parse_quotes_iff (h : parse o source = .error f)
    (hk : f.diagnostic.kind = .grammatical) :
    f.diagnostic.Quotes source ↔ ¬ f.Misquotes source := by
  have hcites := parse_cites h
  cases f with
  | lexical m => cases hk
  | unexpected location found expected =>
    obtain ⟨l, hl, rfl, rfl⟩ := hcites
    refine iff_of_true ?_ not_false
    by_cases hend : l.token = .endOfInput
    · exact Diagnostic.quotes_of_end (readings_stand hl) hend rfl (if_pos hend)
    · exact Diagnostic.quotes_of_found (readings_stand hl) hend rfl (if_neg hend)
  | tooDeep limit location found =>
    obtain ⟨l, hl, rfl, rfl⟩ := hcites
    have hstands := readings_stand hl
    rw [Fault.Misquotes, ← hstands.atEnd]
    by_cases hend : l.token = .endOfInput
    · refine iff_of_false (fun hq => ?_) (not_not_intro hend)
      exact Option.some_ne_none _ (hq.atEnd.2 (hstands.atEnd.1 hend))
    · exact iff_of_true (Diagnostic.quotes_of_found hstands hend rfl rfl) hend
  | unknownTag name location found allowed | conflictingTag name location found =>
    obtain ⟨l, hl, ht, rfl, rfl⟩ := hcites
    have hne : l.token ≠ .endOfInput := by rw [ht]; exact nofun
    exact iff_of_true (Diagnostic.quotes_of_found (readings_stand hl) hne rfl rfl) not_false
  | badOperator value location | badImportance value location =>
    obtain ⟨l, multiline, hl, ht, rfl⟩ := hcites
    exact iff_of_false (Fault.not_quotes_value (readings_stand hl) ht rfl rfl)
      (not_not_intro trivial)
  | orphanBranch name location =>
    obtain ⟨l, hl, ht, rfl⟩ := hcites
    have hstands := readings_stand hl
    have hne : l.token ≠ .endOfInput := by rw [ht]; exact nofun
    have hname : l.found = name := by
      have hwritten := hstands.written
      rw [ht] at hwritten
      rw [Lexeme.found, hwritten, String.ofList_toList]
    exact iff_of_true
      (Diagnostic.quotes_of_found hstands hne rfl (congrArg some hname.symm)) not_false

/-- An unknown tag is quoted, whatever stands before it. -/
theorem parse_quotes_unknown_tag :
    let source := "reject \"é\"; keep :foo;"
    ∃ f, parse .standard source = .error f ∧ f.diagnostic.kind = .grammatical
      ∧ f.diagnostic.Quotes source := by
  intro source
  have h : parse .standard source = .error
      (.unknownTag "foo" ⟨⟨18, 1, 18⟩, ⟨22, 1, 22⟩⟩ ":foo" ["flags"]) := by decide +kernel
  exact ⟨_, h, rfl, (parse_quotes_iff h rfl).2 not_false⟩

/-- A level of importance that does not exist is reported without the quotes around it. -/
theorem not_parse_quotes_importance :
    let source := "notify :importance \"9\" \"x\";"
    ∃ f, parse .standard source = .error f ∧ f.diagnostic.kind = .grammatical
      ∧ ¬ f.diagnostic.Quotes source := by
  intro source
  have h : parse .standard source = .error
      (.badImportance "9" ⟨⟨19, 1, 20⟩, ⟨22, 1, 23⟩⟩) := by decide +kernel
  refine ⟨_, h, rfl, fun hq => ?_⟩
  have hsource : source.toList
      = "notify :importance ".toList ++ ("\"9\"".toList ++ " \"x\";".toList) := by simp [source]
  have htext : some "9" = some (textBetween source 19 22) := hq.text (by decide)
  have hslice : textBetween source 19 22 = "\"9\"" := textBetween_after hsource
  rw [hslice] at htext
  exact absurd htext (by decide)

end Script

end MailSieve
