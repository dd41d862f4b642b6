import MailSieve.Token
import MailSieve.Token.Trivia
import MailSieve.Token.Quoted
import MailSieve.Token.TextBlock
import MailSieve.Script.Check
import MailSieve.Text.Escaped
import MailSieve.Text.Digits

/-! One step of reading tokens.
`scan` cuts a text in three: what stands before the text that the step is about, that text, and the
rest. A token's text is the token itself. A fault's text is the part that the report points at,
which always ends where reading goes on. Nothing is lost (`scan_append`), and every step but the
last makes the rest shorter (`rest_length_lt`). -/

namespace MailSieve

inductive LexicalFault where
  | unclosedComment
  | missingTagName
  | unexpectedCharacter (c : Char)
  | unclosedString
  | invalidEscape (c : Char)
  | missingLineBreak
  | unclosedTextBlock
  | numberOutOfRange
deriving DecidableEq

namespace LexicalFault

def message : LexicalFault → String
  | unclosedComment => "Unterminated block comment"
  | missingTagName => "Expected identifier after ':'"
  | unexpectedCharacter c => "Unexpected character '" ++ Text.escapedChar c ++ "'"
  | unclosedString => "Unterminated string"
  | invalidEscape c => "Invalid escape sequence '\\" ++ Text.escapedChar c ++ "'"
  | missingLineBreak => "Expected line break after 'text:'"
  | unclosedTextBlock => "Unterminated multi-line string"
  | numberOutOfRange => "Number out of range"

end LexicalFault

structure Scan where
  before : List Char
  text : List Char
  outcome : Except LexicalFault Token
  rest : List Char

namespace Scan

def atEnd (s : Scan) : Bool :=
  match s.outcome with
  | .ok .endOfInput => true
  | _ => false

def all (s : Scan) : List Char := s.before ++ (s.text ++ s.rest)

end Scan

/-- The value that a number's digits and suffix denote, if it fits in 64 bits. -/
def numberValue? (digits : List Char) (q : Option Quantifier) : Option UInt64 :=
  let n := Text.digitsValue digits * (q.map (·.multiplier)).getD 1
  if fitsWord n then some (UInt64.ofNat n) else none

def numberOutcome (digits : List Char) (q : Option Quantifier) : Except LexicalFault Token :=
  match numberValue? digits q with
  | some value => .ok (.number value q)
  | none => .error .numberOutOfRange

def scanNumber (cs : List Char) : Scan :=
  let digits := cs.takeWhile Char.isDigit
  match cs.dropWhile Char.isDigit with
  | [] => ⟨[], digits, numberOutcome digits none, []⟩
  | c :: rest =>
    match Quantifier.ofLetter? c with
    | some q => ⟨[], digits ++ [c], numberOutcome digits (some q), rest⟩
    | none => ⟨[], digits, numberOutcome digits none, c :: rest⟩

def scanTextBlockToken (word colonRest : List Char) : Scan :=
  match TextBlock.scanTextBlock colonRest with
  | .noBreak lead rest => ⟨word ++ ':' :: lead, [], .error .missingLineBreak, rest⟩
  | .unclosed text => ⟨[], word ++ ':' :: text, .error .unclosedTextBlock, []⟩
  | .closed value text rest =>
    ⟨[], word ++ ':' :: text, .ok (.string (String.ofList value) true), rest⟩

/-- The word `text` opens a multi-line literal if a colon follows at once. -/
def scanWord (cs : List Char) : Scan :=
  let word := cs.takeWhile isWordPart
  match cs.dropWhile isWordPart with
  | ':' :: rest =>
    if word = ['t', 'e', 'x', 't'] then scanTextBlockToken word rest
    else ⟨[], word, .ok (.word (String.ofList word)), ':' :: rest⟩
  | rest => ⟨[], word, .ok (.word (String.ofList word)), rest⟩

/-- What follows a colon. -/
def scanTag (cs : List Char) : Scan :=
  match cs with
  | [] => ⟨[':'], [], .error .missingTagName, []⟩
  | c :: _ =>
    if isWordStart c then
      ⟨[], ':' :: cs.takeWhile isWordPart, .ok (.tag (String.ofList (cs.takeWhile isWordPart))),
        cs.dropWhile isWordPart⟩
    else ⟨[':'], [], .error .missingTagName, cs⟩

/-- What follows a double quote. -/
def scanString (cs : List Char) : Scan :=
  match Quoted.scanQuoted cs with
  | .closed value text rest => ⟨[], '"' :: text, .ok (.string (String.ofList value) false), rest⟩
  | .badEscape lead c rest => ⟨'"' :: lead, ['\\', c], .error (.invalidEscape c), rest⟩
  | .unclosed text rest => ⟨[], '"' :: text, .error .unclosedString, rest⟩

/-- Reads a text that begins with no trivia. -/
def scanToken : List Char → Scan
  | [] => ⟨[], [], .ok .endOfInput, []⟩
  | c :: cs =>
    match Punctuation.ofChar? c with
    | some p => ⟨[], [c], .ok (.mark p), cs⟩
    | none =>
      if c = '"' then scanString cs
      else if c = ':' then scanTag cs
      else if c.isDigit then scanNumber (c :: cs)
      else if isWordStart c then scanWord (c :: cs)
      else if c = '/' ∧ cs.head? = some '*' then ⟨[], c :: cs, .error .unclosedComment, []⟩
      else ⟨[], [c], .error (.unexpectedCharacter c), cs⟩

def scan (cs : List Char) : Scan :=
  let trivia := Trivia.skipTrivia cs
  let s := scanToken trivia.2
  { s with before := trivia.1 ++ s.before }

theorem scanNumber_append (cs : List Char) : (scanNumber cs).all = cs := by
  have h := List.takeWhile_append_dropWhile (p := Char.isDigit) (l := cs)
  rw [scanNumber]
  split
  · next hd => rw [hd] at h; simpa [Scan.all] using h
  · next c rest hd =>
    rw [hd] at h
    split <;> simpa [Scan.all] using h

theorem scanWord_append (cs : List Char) : (scanWord cs).all = cs := by
  have h := List.takeWhile_append_dropWhile (p := isWordPart) (l := cs)
  rw [scanWord]
  split
  · next rest hd =>
    rw [hd] at h
    split
    · have hb := TextBlock.all_scanTextBlock rest
      rw [scanTextBlockToken]
      split <;> next hr =>
        rw [hr] at hb
        simp [TextBlock.Result.all] at hb
        simpa [Scan.all, hb] using h
    · simpa [Scan.all] using h
  · simp [Scan.all]

theorem scanTag_append (cs : List Char) : (scanTag cs).all = ':' :: cs := by
  rw [scanTag.eq_def]
  split
  · rfl
  · split
    · simp [Scan.all]
    · rfl

theorem scanString_append (cs : List Char) : (scanString cs).all = '"' :: cs := by
  have h := Quoted.all_scanQuoted cs
  rw [scanString]
  split <;> next hr => rw [hr] at h; simpa [Scan.all, Quoted.Result.all] using h

theorem scanToken_append (cs : List Char) : (scanToken cs).all = cs := by
  rw [scanToken.eq_def]
  split
  · rfl
  · next c cs =>
    split
    · rfl
    · split
      · next h => rw [scanString_append, h]
      · split
        · next h => rw [scanTag_append, h]
        · split
          · rw [scanNumber_append]
          · split
            · rw [scanWord_append]
            · split
              · simp [Scan.all]
              · rfl

theorem scan_append (cs : List Char) : (scan cs).all = cs := by
  have h := scanToken_append (Trivia.skipTrivia cs).2
  rw [scan, Scan.all]
  simp only [List.append_assoc]
  rw [← Scan.all, h, Trivia.skipTrivia_append]

/-- A step that does not end the input passes over at least one character. -/
def Scan.Moves (s : Scan) : Prop := s.atEnd = true ∨ s.before ++ s.text ≠ []

theorem scanToken_moves (cs : List Char) : (scanToken cs).Moves := by
  rw [Scan.Moves, scanToken.eq_def]
  split
  · exact .inl rfl
  · next c cs =>
    right
    split
    · simp
    · split
      · rw [scanString]
        split <;> simp
      · split
        · rw [scanTag.eq_def]
          split
          · simp
          · split <;> simp
        · split
          · next hd =>
            rw [scanNumber]
            split
            · simp [hd]
            · split <;> simp [hd]
          · split
            · next hw =>
              have hp : isWordPart c = true := by
                simp only [isWordStart, isWordPart, Char.isAlphanum, Bool.or_eq_true] at hw ⊢
                exact hw.imp_left .inl
              rw [scanWord]
              split
              · split
                · rw [scanTextBlockToken]
                  split <;> simp
                · simp [hp]
              · simp [hp]
            · split <;> simp

theorem scan_moves (cs : List Char) : (scan cs).Moves := by
  rcases scanToken_moves (Trivia.skipTrivia cs).2 with h | h
  · exact .inl h
  · right
    rw [scan]
    simp only [List.append_assoc, ne_eq, List.append_eq_nil_iff, not_and] at h ⊢
    exact fun _ => h

theorem rest_length_lt {cs : List Char} (h : ¬ (scan cs).atEnd = true) :
    (scan cs).rest.length < cs.length := by
  have ha := congrArg List.length (scan_append cs)
  have hm := (scan_moves cs).resolve_left h
  have hp := List.length_pos_iff.2 hm
  simp only [Scan.all, List.length_append] at ha hp
  omega

end MailSieve
