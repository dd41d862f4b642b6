import MailSieve.Proofs.Lexing.Strings

/-! Multi-line literals in all their forms.
A literal may have blanks and a comment behind `text:`, line breaks of both kinds, and a dot line
that ends with the input. The line break before the dot line is taken to be of the kind of the dot
line's own, and where the input ends at the dot, of the kind of the `text:` line's. But a carriage
return behind a comment is taken for a part of the comment: `Literal.takes_iff` says when this makes
a difference to the value. -/

namespace MailSieve

namespace Text

variable {c d : Char} {cs : List Char} {ss : List (List Char)}

theorem stripEnd_append_cons (hd : d ≠ c) (s cs : List Char) :
    stripEnd c (s ++ d :: cs) = s ++ d :: stripEnd c cs := by
  cases cs with
  | nil => simp [stripEnd, hd]
  | cons b cs =>
    simp only [stripEnd, List.getLast?_append, List.getLast?_cons_cons]
    split <;> simp_all

theorem stripEnd_eq_self : stripEnd c cs = cs ↔ cs.getLast? ≠ some c := by
  rw [stripEnd]
  split
  · next h =>
    obtain ⟨init, rfl⟩ := List.getLast?_eq_some_iff.1 h
    simp
  · next h => simp [h]

theorem getLast?_joinSegments (hc : c ≠ '\n') :
    (joinSegments ss).getLast? = some c ↔ ∃ s ∈ ss.getLast?, s.getLast? = some c := by
  induction ss with
  | nil => simp [joinSegments]
  | cons s ss ih =>
    cases ss with
    | nil => simp [joinSegments, List.intercalate]
    | cons t ss =>
      rw [joinSegments_cons, List.getLast?_append, List.getLast?_cons_cons, ← ih]
      cases joinSegments (t :: ss) with
      | nil => simp [Ne.symm hc]
      | cons d ds => simp

end Text

namespace TextBlock

open Text

def breakOf (crlf : Bool) : List Char := if crlf then ['\r', '\n'] else ['\n']

/-- A literal as it stands in a source, behind `text:` and up to the end of its dot line. -/
structure Literal where
  blanks : List Char
  comment : Option (List Char)
  headerReturn : Bool
  lines : List (List Char)
  dotReturn : Bool
  ending : Ending
  blanks_inline : ∀ c ∈ blanks, c = ' ' ∨ c = '\t'
  comment_line : ∀ cs ∈ comment, '\n' ∉ cs
  lines_apart : ∀ l ∈ lines, '\n' ∉ l ∧ stripEnd '\r' l ≠ ['.']

/-- A line without the first of two dots that it begins with. -/
def undotted (line : List Char) : List Char :=
  if ['.', '.'] <+: line then line.tail else line

/-- Lines without one carriage return that ends the last of them. -/
def dropReturn : List (List Char) → List (List Char)
  | [] => []
  | [l] => [stripEnd '\r' l]
  | l :: m :: ls => l :: dropReturn (m :: ls)

namespace Literal

/-- The `text:` line behind the colon, with its line break. -/
def header (l : Literal) : List Char :=
  l.blanks ++ (l.comment.elim [] ('#' :: ·) ++ breakOf l.headerReturn)

def dotLine (l : Literal) : List Char := '.' :: if l.dotReturn then ['\r'] else []

def body (l : Literal) : List Char :=
  l.lines.flatMap (· ++ ['\n']) ++ (l.dotLine ++ l.ending.lineBreak)

def text (l : Literal) : List Char := ['t', 'e', 'x', 't', ':'] ++ (l.header ++ l.body)

/-- The lines with their line breaks between them; `crlf` says of which kind the last break is. -/
def value (l : Literal) (crlf : Bool) : List Char :=
  joinSegments (if crlf then dropReturn (l.lines.map undotted) else l.lines.map undotted)

/-- The kind of the dot line's break, or of that of the `text:` line if the input ends at the dot.
-/
def lastBreak (l : Literal) : Bool := l.ending.returns (['\r', '\n'].isSuffixOf l.header) l.dotLine

/-- The kind that is counted: the line break behind a comment always counts as a line feed. -/
def countedBreak (l : Literal) : Bool :=
  l.ending.returns (l.comment.isNone && l.headerReturn) l.dotLine

/-- The input ends at the dot, there is a comment before a carriage return and a line feed, and the
last line ends with a carriage return, which should go with its break. -/
def Overlooked (l : Literal) : Prop :=
  l.ending = .input ∧ l.comment.isSome ∧ ['\r', '\n'] <:+ l.header
    ∧ ∃ s ∈ l.lines.getLast?, s.getLast? = some '\r'

end Literal

section Values

variable {ls : List (List Char)}

theorem undotted_eq_unstuffLine (l : List Char) : undotted l = unstuffLine l := by
  unfold unstuffLine
  split
  · next cs => exact if_pos ⟨cs, rfl⟩
  · next h =>
    refine if_neg ?_
    rintro ⟨cs, rfl⟩
    exact h cs rfl

theorem getLast?_undotted (l : List Char) : (undotted l).getLast? = l.getLast? := by
  rw [undotted]
  split
  · next h =>
    obtain ⟨cs, rfl⟩ := h
    simp
  · rfl

theorem joinSegments_dropReturn (ls : List (List Char)) :
    joinSegments (dropReturn ls) = stripEnd '\r' (joinSegments ls) := by
  fun_induction dropReturn ls with
  | case1 => rfl
  | case2 l => simp [joinSegments, List.intercalate]
  | case3 l m ls ih =>
    obtain ⟨s, ss, hs⟩ : ∃ s ss, dropReturn (m :: ls) = s :: ss := by
      cases ls with
      | nil => exact ⟨_, _, rfl⟩
      | cons n ls => exact ⟨_, _, rfl⟩
    rw [hs, joinSegments_cons, ← hs, ih, joinSegments_cons, stripEnd_append_cons (by decide)]

theorem Literal.value_eq_valueOf (l : Literal) (crlf : Bool) :
    l.value crlf = valueOf crlf l.lines := by
  rw [value, valueOf, funext undotted_eq_unstuffLine]
  cases crlf with
  | false => rfl
  | true => exact joinSegments_dropReturn _

theorem Literal.value_congr (l : Literal) : l.value true = l.value false
    ↔ ¬ ∃ s ∈ l.lines.getLast?, s.getLast? = some '\r' := by
  have hlast : (∃ s ∈ (l.lines.map undotted).getLast?, s.getLast? = some '\r')
      ↔ ∃ s ∈ l.lines.getLast?, s.getLast? = some '\r' := by
    simp [getLast?_undotted]
  rw [← hlast, ← getLast?_joinSegments (by decide)]
  exact (joinSegments_dropReturn _).congr_left.trans stripEnd_eq_self

end Values

section Scanned

variable {l : Literal}

theorem Literal.isDotLine_dotLine (l : Literal) :
    isDotLine l.dotLine = true ∧ '\n' ∉ l.dotLine := by
  rw [dotLine]
  split
  · exact ⟨rfl, by simp⟩
  · exact ⟨rfl, by simp⟩

theorem Literal.afterHeader_header (l : Literal) (cs : List Char) :
    afterHeader (l.header ++ cs) = breakOf (l.comment.isNone && l.headerReturn) ++ cs := by
  have hblanks : ∀ c ∈ l.blanks, isInlineBlank c = true := by
    intro c hc
    obtain rfl | rfl := l.blanks_inline c hc <;> rfl
  rw [header, List.append_assoc]
  cases hc : l.comment with
  | none =>
    have hbreak : ∀ c ∈ (breakOf l.headerReturn ++ cs).head?, isInlineBlank c = false := by
      cases l.headerReturn <;> simp [breakOf, isInlineBlank]
    have hhash : (breakOf l.headerReturn ++ cs).head? ≠ some '#' := by
      cases l.headerReturn <;> simp [breakOf]
    change afterHeader (l.blanks ++ (breakOf l.headerReturn ++ cs)) = breakOf l.headerReturn ++ cs
    rw [afterHeader, (takeWhile_of_bounded hblanks hbreak).2, if_neg hhash]
  | some comment =>
    have hline : ∀ c ∈ '#' :: comment, isLineText c = true := by
      refine List.forall_mem_cons.2 ⟨rfl, fun c hm => bne_iff_ne.2 ?_⟩
      rintro rfl
      exact l.comment_line comment hc hm
    have hmore : ∃ text, (∀ c ∈ text, isLineText c = true)
        ∧ '#' :: comment ++ breakOf l.headerReturn = text ++ ['\n'] := by
      cases l.headerReturn with
      | false => exact ⟨_, hline, rfl⟩
      | true =>
        refine ⟨'#' :: comment ++ ['\r'], ?_, by simp [breakOf]⟩
        exact List.forall_mem_append.2 ⟨hline, by simp [isLineText]⟩
    obtain ⟨text, htext, hsplit⟩ := hmore
    have hdrop : (text ++ '\n' :: cs).dropWhile isLineText = '\n' :: cs :=
      (takeWhile_of_bounded htext (by simp [isLineText])).2
    have hhash : ('#' :: comment ++ breakOf l.headerReturn ++ cs).head? = some '#' := rfl
    change afterHeader (l.blanks ++ ('#' :: comment ++ breakOf l.headerReturn ++ cs)) = '\n' :: cs
    rw [afterHeader, (takeWhile_of_bounded hblanks (by simp [isInlineBlank])).2, if_pos hhash,
      hsplit, List.append_assoc]
    exact hdrop

theorem Literal.scanTextBlock_text (l : Literal) :
    ∃ text, scanTextBlock (l.header ++ l.body ++ l.ending.behind)
      = .closed (l.value l.countedBreak) text l.ending.behind := by
  obtain ⟨hdot, hn⟩ := l.isDotLine_dotLine
  have hlines : ∀ s ∈ l.lines, '\n' ∉ s ∧ isDotLine s = false := fun s hs =>
    ⟨(l.lines_apart s hs).1, beq_false_of_ne (l.lines_apart s hs).2⟩
  have hbody (crlf : Bool) (lead : List Char) :
      ∃ text, scanBody crlf lead (l.body ++ l.ending.behind)
        = .closed (l.value (l.ending.returns crlf l.dotLine)) text l.ending.behind := by
    rw [body, List.append_assoc, List.append_assoc, l.value_eq_valueOf]
    exact scanBody_lines hlines hdot hn crlf lead l.ending
  rw [List.append_assoc, scanTextBlock, l.afterHeader_header, countedBreak]
  cases l.comment.isNone && l.headerReturn with
  | false => exact hbody false _
  | true => exact hbody true _

theorem Literal.lastBreak_eq_countedBreak
    (h : l.ending = .input → l.comment.isSome → ¬ ['\r', '\n'] <:+ l.header) :
    l.lastBreak = l.countedBreak := by
  rw [lastBreak, countedBreak]
  cases he : l.ending with
  | line more => rfl
  | input =>
    change ['\r', '\n'].isSuffixOf l.header = (l.comment.isNone && l.headerReturn)
    rw [Bool.eq_iff_iff, List.isSuffixOf_iff_suffix]
    cases hc : l.comment with
    | some comment => simpa [hc] using h he
    | none =>
      rw [header, hc]
      cases l.headerReturn with
      | true => simp [breakOf]
      | false =>
        -- The line feed has nothing but blanks before it.
        refine iff_of_false (fun hsuffix => ?_) (by simp)
        have hreturn : ['\r'] <:+ l.blanks := by
          have hsplit : ['\r'] ++ ['\n'] <:+ l.blanks ++ ['\n'] := hsuffix
          exact (List.suffix_append_inj_of_length_eq rfl).1 hsplit |>.1
        obtain h | h := l.blanks_inline '\r' (hreturn.subset (by simp)) <;> cases h

/-- What a literal is read as, and when the last line break of its value is of the kind it seems. -/
theorem Literal.takes_iff (l : Literal) :
    Scanner.Takes l.text (.string (String.ofList (l.value l.countedBreak)) true) l.ending.behind
      ∧ (Scanner.Takes l.text (.string (String.ofList (l.value l.lastBreak)) true) l.ending.behind
        ↔ ¬ l.Overlooked) := by
  obtain ⟨text, hscan⟩ := l.scanTextBlock_text
  have htakes : Scanner.Takes l.text (.string (String.ofList (l.value l.countedBreak)) true)
      l.ending.behind := Scanner.takes_of_spells (spells_literal hscan) rfl (by simp)
  refine ⟨htakes, fun h hover => ?_, fun hover => ?_⟩
  · obtain ⟨hinput, hcomment, hheader, hlast⟩ := hover
    have hvalue : l.value l.lastBreak = l.value l.countedBreak := by
      simpa [String.ofList_inj] using Scanner.Takes.unique h htakes
    have hseems : l.lastBreak = true := by
      rw [lastBreak, hinput]
      exact List.isSuffixOf_iff_suffix.2 hheader
    have hcounted : l.countedBreak = false := by
      rw [countedBreak, hinput]
      change (l.comment.isNone && l.headerReturn) = false
      rw [← Option.not_isSome, hcomment]
      rfl
    rw [hseems, hcounted] at hvalue
    exact l.value_congr.1 hvalue hlast
  · have hvalue : l.value l.lastBreak = l.value l.countedBreak := by
      by_cases hlast : ∃ s ∈ l.lines.getLast?, s.getLast? = some '\r'
      · rw [l.lastBreak_eq_countedBreak fun he hc hh => hover ⟨he, hc, hh, hlast⟩]
      · have hsame := l.value_congr.2 hlast
        cases l.lastBreak <;> cases l.countedBreak <;> simp [hsame]
    rwa [hvalue]

/-- In `text: # c`, broken by a carriage return and a line feed, the comment takes the carriage
return in, so that the line before the dot keeps its own where the input ends at the dot. -/
theorem Literal.not_takes_comment : ¬ ∀ l : Literal,
    Scanner.Takes l.text (.string (String.ofList (l.value l.lastBreak)) true) l.ending.behind := by
  intro h
  let l : Literal := ⟨[' '], some [' ', 'c'], true, [['a', '\r']], false, .input,
    by simp, by simp, by simp [stripEnd]⟩
  have hread : (Scanner.mk .origin (l.text ++ l.ending.behind)).read
      = .ok ⟨.string "a\r" true, ⟨.origin, ⟨15, 3, 2⟩⟩, "text: # c\r\na\r\n.".toList⟩ := by
    decide +kernel
  have htoken := (Lexeme.mk.inj (Except.ok.inj ((h l .origin).1.symm.trans hread))).1
  have hvalue : String.ofList (l.value l.lastBreak) = "a\r" := (Token.string.inj htoken).1
  exact absurd hvalue (by decide)

end Scanned

end TextBlock

end MailSieve
