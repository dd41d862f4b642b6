import Mathlib.Algebra.Ring.Parity
import MailSieve.Proofs.Lexing.Strings
import MailSieve.Proofs.Lexing.Tiled

/-! What is never closed.
A bracketed comment, a quoted string or a multi-line literal that the input ends before its close is
reported from its first character on, up to the end of the source, where the next call finds the
end. There is one exception: a backslash that ends a string, with nothing behind it to escape, is
left to the next call, which takes it for a character that stands there by itself. -/

namespace MailSieve

open Text Trivia

namespace LexicalFault

/-- The reports that call something unterminated. -/
def Unclosed (f : LexicalFault) : Prop :=
  f.message ∈
    ["Unterminated string", "Unterminated multi-line string", "Unterminated block comment"]

theorem Unclosed.third {f : LexicalFault} (h : f.Unclosed) : f.message.toList[2]? = some 't' := by
  simp only [Unclosed, List.mem_cons, List.not_mem_nil, or_false] at h
  obtain h | h | h := h <;> rw [h] <;> rfl

theorem unclosed_iff {f : LexicalFault} :
    f.Unclosed ↔ f = unclosedString ∨ f = unclosedTextBlock ∨ f = unclosedComment := by
  constructor
  · intro h
    have hthird := h.third
    cases f with
    | unclosedComment | unclosedString | unclosedTextBlock => simp
    | missingTagName =>
      have hother : "Expected identifier after ':'".toList[2]? ≠ some 't' := by decide
      exact absurd hthird hother
    | missingLineBreak =>
      have hother : "Expected line break after 'text:'".toList[2]? ≠ some 't' := by decide
      exact absurd hthird hother
    | numberOutOfRange =>
      have hother : "Number out of range".toList[2]? ≠ some 't' := by decide
      exact absurd hthird hother
    | unexpectedCharacter c =>
      change ("Unexpected character '" ++ escapedChar c ++ "'").toList[2]? = some 't' at hthird
      rw [String.toList_append, String.toList_append, List.append_assoc] at hthird
      cases hthird
    | invalidEscape c =>
      change ("Invalid escape sequence '\\" ++ escapedChar c ++ "'").toList[2]? = some 't' at hthird
      rw [String.toList_append, String.toList_append, List.append_assoc] at hthird
      cases hthird
  · have hmem (text : String) (texts : List String) : text ∈ text :: texts := List.mem_cons_self
    rintro (rfl | rfl | rfl)
    · exact hmem _ _
    · exact List.mem_cons_of_mem _ (hmem _ _)
    · exact List.mem_cons_of_mem _ (List.mem_cons_of_mem _ (hmem _ _))

/-- A construct as it stands before the end of the input, which it never closes. -/
inductive Opens : LexicalFault → List Char → Prop where
  | comment {body : List Char} : ¬ ['*', '/'] <:+: body →
    Opens unclosedComment ('/' :: '*' :: body)
  | string {value escape : List Char} : escape = [] ∨ escape = ['\\'] →
    Opens unclosedString ('"' :: (Quoted.quote value ++ escape))
  | textBlock {header body : List Char} : '\n' ∉ header →
    (∀ l ∈ segments body, stripEnd '\r' l ≠ ['.']) →
    Opens unclosedTextBlock ("text:".toList ++ (header ++ '\n' :: body))

end LexicalFault

section Steps

variable {cs text value rest : List Char} {f : LexicalFault}

theorem Trivia.not_infix_of_skipBlockComment (h : skipBlockComment cs = none) :
    ¬ ['*', '/'] <:+: cs := by
  induction cs with
  | nil => simp
  | cons c cs ih =>
    by_cases hclose : ∃ ds, c = '*' ∧ cs = '/' :: ds
    · obtain ⟨ds, rfl, rfl⟩ := hclose
      rw [skipBlockComment] at h
      cases h
    · have hc : ∀ ds, c = '*' → cs = '/' :: ds → False := fun ds h₁ h₂ => hclose ⟨ds, h₁, h₂⟩
      rw [skipBlockComment.eq_3 c cs hc, Option.map_eq_none_iff] at h
      rw [List.infix_cons_iff]
      rintro (hclosed | hinfix)
      · obtain ⟨rfl, ds, rfl⟩ := List.cons_prefix_cons.1 hclosed
        exact hc ds rfl rfl
      · exact ih h hinfix

theorem Trivia.skipBlockComment_of_skipped (h : (skipTrivia cs).2 = '/' :: '*' :: rest) :
    skipBlockComment rest = none := by
  have hagain := skipTrivia_again cs
  rw [h, skipTrivia] at hagain
  split at hagain
  · cases hagain
  · next hnone => exact hnone

theorem Quoted.text_of_unclosed (h : scanQuoted cs = .unclosed text rest) :
    (∃ value, text = quote value) ∧ (rest = [] ∨ rest = ['\\']) := by
  fun_induction scanQuoted cs generalizing text with
  | case1 =>
    cases h
    exact ⟨⟨[], rfl⟩, .inl rfl⟩
  | case2 => cases h
  | case3 =>
    cases h
    exact ⟨⟨[], rfl⟩, .inr rfl⟩
  | case4 c cs hc ih =>
    cases hr : scanQuoted cs with
    | closed | badEscape =>
      rw [hr] at h
      cases h
    | unclosed more tail =>
      rw [hr] at h
      cases h
      obtain ⟨⟨value, rfl⟩, hrest⟩ := ih hr
      exact ⟨⟨c :: value, by rw [quote, if_pos hc]; rfl⟩, hrest⟩
  | case5 => cases h
  | case6 c cs hquote hlast hescape ih =>
    cases hr : scanQuoted cs with
    | closed | badEscape =>
      rw [hr] at h
      cases h
    | unclosed more tail =>
      rw [hr] at h
      cases h
      have hc : ¬ (c = '\\' ∨ c = '"') := by
        rintro (hc | hc)
        · cases cs with
          | nil => exact hlast hc rfl
          | cons d cs => exact hescape d cs hc rfl
        · exact hquote hc
      obtain ⟨⟨value, rfl⟩, hrest⟩ := ih hr
      exact ⟨⟨c :: value, by rw [quote, if_neg hc]; rfl⟩, hrest⟩

theorem TextBlock.not_mem_headerLead (cs : List Char) : '\n' ∉ headerLead cs := by
  have hblank : '\n' ∉ cs.takeWhile isInlineBlank := fun h => by
    cases List.mem_takeWhile_imp h
  have hline : '\n' ∉ (cs.dropWhile isInlineBlank).takeWhile isLineText := fun h => by
    cases List.mem_takeWhile_imp h
  rw [headerLead]
  split
  · simp [hblank, hline]
  · exact hblank

theorem TextBlock.not_isDotLine_of_splitAtDot {ls : List (List Char)} (h : splitAtDot ls = none) :
    ∀ l ∈ ls, isDotLine l = false := by
  induction ls with
  | nil => exact nofun
  | cons l ls ih =>
    rw [splitAtDot] at h
    split at h
    · cases h
    · next hl =>
      exact List.forall_mem_cons.2 ⟨Bool.not_eq_true _ ▸ hl, ih (Option.map_eq_none_iff.1 h)⟩

theorem TextBlock.text_of_unclosed (h : scanTextBlock cs = .unclosed text) :
    ∃ header body, text = header ++ '\n' :: body ∧ '\n' ∉ header
      ∧ ∀ l ∈ segments body, stripEnd '\r' l ≠ ['.'] := by
  have hlead := not_mem_headerLead cs
  have hbody {crlf : Bool} {lead body : List Char} (h : scanBody crlf lead body = .unclosed text) :
      text = lead ++ body ∧ ∀ l ∈ segments body, stripEnd '\r' l ≠ ['.'] := by
    rw [scanBody] at h
    split at h
    · next hnone =>
      cases h
      exact ⟨rfl, fun l hl => ne_of_beq_false (not_isDotLine_of_splitAtDot hnone l hl)⟩
    · cases h
    · cases h
  rw [scanTextBlock] at h
  split at h
  · next body _ =>
    obtain ⟨rfl, hlines⟩ := hbody h
    exact ⟨headerLead cs ++ ['\r'], body, by simp, by simpa using hlead, hlines⟩
  · next body _ =>
    obtain ⟨rfl, hlines⟩ := hbody h
    exact ⟨headerLead cs, body, by simp, hlead, hlines⟩
  · cases h

/-- A step that comes upon the end of the input inside what it reads: everything is passed over,
except perhaps the last backslash of a string. -/
structure Scan.Open (s : Scan) (f : LexicalFault) : Prop where
  before : s.before = []
  opens : f.Opens (s.text ++ s.rest)
  rest : s.rest = [] ∨ f = .unclosedString ∧ s.rest = ['\\']
  quoted : f = .unclosedString → ∃ value, s.text = '"' :: Quoted.quote value

theorem scanString_open (h : (scanString cs).outcome = .error f) (hf : f.Unclosed) :
    (scanString cs).Open f := by
  rw [scanString] at h ⊢
  cases hr : Quoted.scanQuoted cs with
  | closed value text rest =>
    rw [hr] at h
    cases h
  | badEscape lead c rest =>
    rw [hr] at h
    cases h
    obtain h | h | h := LexicalFault.unclosed_iff.1 hf <;> cases h
  | unclosed text rest =>
    rw [hr] at h
    cases h
    obtain ⟨⟨value, rfl⟩, hrest⟩ := Quoted.text_of_unclosed hr
    exact ⟨rfl, .string hrest, hrest.imp_right fun h => ⟨rfl, h⟩, fun _ => ⟨value, rfl⟩⟩

theorem scanWord_open (h : (scanWord cs).outcome = .error f) (hf : f.Unclosed) :
    (scanWord cs).Open f := by
  obtain hplain | ⟨rest, -, hw, htext⟩ := scanWord_cases cs
  · rw [hplain] at h
    cases h
  · rw [htext, scanTextBlockToken] at h ⊢
    cases hr : TextBlock.scanTextBlock rest with
    | noBreak lead more =>
      rw [hr] at h
      cases h
      obtain h | h | h := LexicalFault.unclosed_iff.1 hf <;> cases h
    | unclosed text =>
      rw [hr] at h
      cases h
      obtain ⟨header, body, rfl, hheader, hlines⟩ := TextBlock.text_of_unclosed hr
      refine ⟨rfl, ?_, .inl rfl, fun hstring => by cases hstring⟩
      rw [hw, List.append_nil]
      exact .textBlock hheader hlines
    | closed value text more =>
      rw [hr] at h
      cases h

theorem scanNumber_error (h : (scanNumber cs).outcome = .error f) : f = .numberOutOfRange := by
  have hout {digits : List Char} {q : Option Quantifier}
      (h : numberOutcome digits q = .error f) : f = .numberOutOfRange := by
    rw [numberOutcome] at h
    split at h
    · cases h
    · exact (Except.error.inj h).symm
  rw [scanNumber] at h
  split at h
  · exact hout h
  · split at h <;> exact hout h

theorem scanTag_error (h : (scanTag cs).outcome = .error f) : f = .missingTagName := by
  rw [scanTag.eq_def] at h
  split at h
  · exact (Except.error.inj h).symm
  · split at h
    · cases h
    · exact (Except.error.inj h).symm

/-- Behind the trivia an open construct is all that is left. -/
theorem scanToken_open (hskip : skipTrivia cs = ([], cs)) (h : (scanToken cs).outcome = .error f)
    (hf : f.Unclosed) : (scanToken cs).Open f := by
  have hnot {g : LexicalFault} (hg : f = g)
      (hne : ¬ (g = .unclosedString ∨ g = .unclosedTextBlock ∨ g = .unclosedComment)) : False :=
    hne (LexicalFault.unclosed_iff.1 (hg ▸ hf))
  cases cs with
  | nil => cases h
  | cons c cs =>
    cases hp : Punctuation.ofChar? c with
    | some p =>
      rw [scanToken_mark hp] at h
      cases h
    | none =>
      rw [scanToken_other hp] at h ⊢
      split_ifs at h ⊢ with hq hcolon hdigit hword hcomment
      · exact scanString_open h hf
      · exact (hnot (scanTag_error h) (by simp)).elim
      · exact (hnot (scanNumber_error h) (by simp)).elim
      · exact scanWord_open h hf
      · obtain ⟨rfl, hstar⟩ := hcomment
        obtain ⟨body, rfl⟩ := List.head?_eq_some_iff.1 hstar
        cases h
        have hbody : skipBlockComment body = none :=
          skipBlockComment_of_skipped (congrArg Prod.snd hskip)
        refine ⟨rfl, ?_, .inl rfl, nofun⟩
        rw [List.append_nil]
        exact .comment (not_infix_of_skipBlockComment hbody)
      · exact (hnot (Except.error.inj h).symm (by simp)).elim

theorem Quoted.quote_append (cs ds : List Char) : quote (cs ++ ds) = quote cs ++ quote ds := by
  induction cs with
  | nil => rfl
  | cons c cs ih =>
    rw [List.cons_append, quote, quote, ih]
    split <;> rfl

theorem Quoted.even_backslashes (lead value : List Char) :
    Even ((lead ++ '"' :: quote value).rtakeWhile (· = '\\')).length := by
  have hstop {cs : List Char} {c : Char} (hc : c ≠ '\\') :
      Even ((cs ++ [c]).rtakeWhile (· = '\\')).length := by
    rw [List.rtakeWhile_concat_neg _ _ _ (by simpa using hc)]
    exact Even.zero
  induction value using List.reverseRecOn with
  | nil => exact hstop (by decide)
  | append_singleton value c ih =>
    rw [quote_append, ← List.cons_append, ← List.append_assoc]
    by_cases hc : c = '\\'
    · subst hc
      have hpair (cs : List Char) : cs ++ quote ['\\'] = cs ++ ['\\'] ++ ['\\'] :=
        (List.append_assoc cs ['\\'] ['\\']).symm
      rw [hpair, List.rtakeWhile_concat_pos _ _ _ (by decide),
        List.rtakeWhile_concat_pos _ _ _ (by decide), List.append_assoc, List.length_append]
      exact ih.add even_two
    · by_cases hq : c = '"'
      · subst hq
        have hescape (cs : List Char) : cs ++ quote ['"'] = cs ++ ['\\'] ++ ['"'] :=
          (List.append_assoc cs ['\\'] ['"']).symm
        rw [hescape]
        exact hstop hc
      · have hplain : quote [c] = [c] := by simp [quote, hc, hq]
        rw [hplain]
        exact hstop hc

end Steps

/-- The source ends with a backslash that no other backslash stands before as its escape. -/
def EndsInEscape (source : String) : Prop := Odd (source.toList.rtakeWhile (· = '\\')).length

namespace Scanner

/-- A construct is reported from its first character on: what the call has passed over before it is
trivia, and from there to its end the source holds nothing but the construct, never closed. -/
structure ReportsOpen (source : String) (s : Scanner) (m : Misreading) : Prop where
  before : Closed (textBetween source s.place.offset m.location.start.offset).toList
  opens : m.fault.Opens (textBetween source m.location.start.offset source.utf8ByteSize).toList

section Reports

variable {source : String} {s : Scanner} {m : Misreading}

theorem scan_open {cs : List Char} {f : LexicalFault} (h : (scan cs).outcome = .error f)
    (hf : f.Unclosed) : Closed (scan cs).before ∧ { scan cs with before := [] }.Open f := by
  have hopen : (scanToken (skipTrivia cs).2).Open f := scanToken_open (skipTrivia_again cs) h hf
  have hne : (skipTrivia cs).2 ≠ [] := by
    intro hnil
    have h' : (scanToken (skipTrivia cs).2).outcome = .error f := h
    rw [hnil] at h'
    cases h'
  have hbefore : (scan cs).before = (skipTrivia cs).1 := by
    rw [scan, hopen.before, List.append_nil]
  exact ⟨hbefore ▸ (skip_skipped.1 cs).2 hne, rfl, hopen.opens, hopen.rest, hopen.quoted⟩

theorem outcome_of_read (h : s.read = .error m) :
    (scan s.rest).outcome = .error m.fault ∧ m.location = (scan s.rest).locate s.place := by
  rw [read, Scan.reading] at h
  split at h
  · cases h
  · next f hf =>
    cases h
    exact ⟨hf, rfl⟩

theorem read_backslash (p : Position) :
    (Scanner.mk p ['\\']).read
        = .error ⟨.unexpectedCharacter '\\', ⟨p, ⟨p.offset + 1, p.line, p.column + 1⟩⟩⟩
      ∧ (Scanner.mk p ['\\']).next = ⟨⟨p.offset + 1, p.line, p.column + 1⟩, []⟩ := by
  have hscan : scan ['\\'] = ⟨[], ['\\'], .error (.unexpectedCharacter '\\'), []⟩ := by
    rw [scan_token rfl]
    rfl
  constructor
  · rw [read, hscan]
    rfl
  · rw [next, hscan]
    rfl

theorem At.place_of_rest_nil (h : s.At source) (hnil : s.rest = []) :
    s.place.offset = source.utf8ByteSize ∧ s.Done := by
  obtain ⟨lead, hsource, hplace⟩ := h
  rw [hnil, List.append_nil] at hsource
  refine ⟨?_, done_iff.2 ?_⟩
  · rw [hplace, ← hsource, Position.offset_origin_after, String.ofList_toList]
  · rw [hnil]
    rfl

theorem At.reportsOpen (h : s.At source) (hread : s.read = .error m) (hf : m.fault.Unclosed) :
    ReportsOpen source s m := by
  obtain ⟨lead, hsource, hplace⟩ := h
  obtain ⟨hout, hlocation⟩ := outcome_of_read hread
  obtain ⟨hclosed, hopen⟩ := scan_open hout hf
  have hcut : source.toList
      = lead ++ ((scan s.rest).before ++ ((scan s.rest).text ++ (scan s.rest).rest)) :=
    hsource.trans (congrArg (lead ++ ·) (scan_append s.rest).symm)
  have hstart : m.location.start = (Position.origin.after lead).after (scan s.rest).before := by
    rw [hlocation, hplace]
    rfl
  constructor
  · rw [hstart, hplace, textBetween_after hcut, String.toList_ofList]
    exact hclosed
  · rw [← List.append_assoc] at hcut
    rw [hstart, ← Position.after_append, textBetween_behind hcut, String.toList_ofList]
    exact hopen.opens

/-- What an open construct leaves is a backslash that ends a string, or nothing. -/
theorem At.rest_open (h : s.At source) (hread : s.read = .error m) (hf : m.fault.Unclosed) :
    (s.next.rest = [] ∧ ¬ (m.fault = .unclosedString ∧ EndsInEscape source))
      ∨ (s.next.rest = ['\\'] ∧ m.fault = .unclosedString ∧ EndsInEscape source) := by
  obtain ⟨lead, hsource, -⟩ := h
  obtain ⟨-, hopen⟩ := scan_open (outcome_of_read hread).1 hf
  have hstring (hm : m.fault = .unclosedString) : ∃ front value, source.toList
      = front ++ '"' :: Quoted.quote value ++ s.next.rest := by
    obtain ⟨value, htext⟩ := hopen.quoted hm
    refine ⟨lead ++ (scan s.rest).before, value, ?_⟩
    rw [hsource, ← htext, List.append_assoc, List.append_assoc]
    exact congrArg (lead ++ ·) (scan_append s.rest).symm
  obtain hnil | ⟨hm, hback⟩ := hopen.rest
  · refine .inl ⟨hnil, fun ⟨hm, hodd⟩ => ?_⟩
    obtain ⟨front, value, hcut⟩ := hstring hm
    have hrest : s.next.rest = [] := hnil
    rw [EndsInEscape, hcut, hrest, List.append_nil] at hodd
    exact Nat.not_even_iff_odd.2 hodd (Quoted.even_backslashes front value)
  · obtain ⟨front, value, hcut⟩ := hstring hm
    have hrest : s.next.rest = ['\\'] := hback
    refine .inr ⟨hrest, hm, ?_⟩
    rw [EndsInEscape, hcut, hrest, List.rtakeWhile_concat_pos _ _ _ (by decide),
      List.length_append]
    exact (Quoted.even_backslashes front value).add_one

/-- A construct that is never closed is reported from its first character on. It is reported up to
the end of the source, and the next call finds the end, exactly unless a backslash with nothing
behind it ends a string; then the backslash is left, and the next call reports it once more. -/
theorem unclosed_reported (n : Nat) (hread : (after source n).read = .error m)
    (hf : m.fault.Unclosed) :
    ReportsOpen source (after source n) m
      ∧ (m.location.stop.offset = source.utf8ByteSize ∧ (after source n).next.Done
        ↔ ¬ (m.fault = .unclosedString ∧ EndsInEscape source))
      ∧ (m.fault = .unclosedString → EndsInEscape source →
        m.location.stop.offset + 1 = source.utf8ByteSize
          ∧ (∃ stop, (after source n).next.read
            = .error ⟨.unexpectedCharacter '\\', ⟨m.location.stop, stop⟩⟩)
          ∧ (after source n).next.next.Done) := by
  have hat := at_after source n
  have hstop : m.location.stop = (after source n).next.place := hat.sound.resumes m hread
  refine ⟨hat.reportsOpen hread hf, ?_⟩
  obtain ⟨hrest, hno⟩ | ⟨hrest, hm, hescape⟩ := hat.rest_open hread hf
  · refine ⟨iff_of_true ?_ hno, fun hm hescape => absurd ⟨hm, hescape⟩ hno⟩
    rw [hstop]
    exact hat.next.place_of_rest_nil hrest
  · obtain ⟨hback, hbehind⟩ := read_backslash (after source n).next.place
    have hnext : (after source n).next = ⟨(after source n).next.place, ['\\']⟩ :=
      congrArg (Scanner.mk _) hrest
    rw [← hnext] at hback hbehind
    obtain ⟨hsize, hdone⟩ := hat.next.next.place_of_rest_nil (congrArg Scanner.rest hbehind)
    refine ⟨iff_of_false ?_ (not_not_intro ⟨hm, hescape⟩), fun _ _ => ⟨?_, ?_, hdone⟩⟩
    · rintro ⟨-, l, hl, -⟩
      cases hback.symm.trans hl
    · rw [← hsize, hbehind, hstop]
    · exact ⟨_, hstop ▸ hback⟩

/-- Two backslashes that end a string are one that is escaped. -/
theorem unclosed_reported_escaped :
    let source := "é;\"a\\\\"
    let m : Misreading := ⟨.unclosedString, ⟨⟨3, 1, 3⟩, ⟨7, 1, 7⟩⟩⟩
    (after source 2).read = .error m ∧ m.fault.Unclosed
      ∧ m.location.stop.offset = source.utf8ByteSize ∧ (after source 2).next.Done := by
  intro source m
  have hread : (after source 2).read = .error m := by decide +kernel
  have hf : m.fault.Unclosed := LexicalFault.unclosed_iff.2 (.inl rfl)
  have heven : ¬ EndsInEscape source := by
    rw [EndsInEscape, Nat.not_odd_iff_even]
    decide
  exact ⟨hread, hf, (unclosed_reported 2 hread hf).2.1.2 fun h => heven h.2⟩

/-- The backslash that ends the source is no part of what is reported. -/
theorem not_unclosed_reported_backslash : ¬ ∀ (source : String) (n : Nat) (m : Misreading),
    (after source n).read = .error m → m.fault.Unclosed →
      m.location.stop.offset = source.utf8ByteSize ∧ (after source n).next.Done := by
  intro h
  have hread : (after "\"\\" 0).read
      = .error ⟨.unclosedString, ⟨⟨0, 1, 1⟩, ⟨1, 1, 2⟩⟩⟩ := by decide +kernel
  obtain ⟨hstop, -⟩ := h _ 0 _ hread (LexicalFault.unclosed_iff.2 (.inl rfl))
  exact absurd hstop (by decide)

end Reports

end Scanner

end MailSieve
