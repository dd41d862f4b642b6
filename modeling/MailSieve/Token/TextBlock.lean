import MailSieve.Text.Lines

/-! Multi-line literals.
After `text:` come blanks, perhaps a comment, and a line break; then lines up to one that is a lone
dot, perhaps with a carriage return. A line that begins with two dots stands for itself with one dot
less. The line break before the dot line is not part of the value. Where the dot line is broken by a
carriage return and a line feed, that break was of the same kind, so one carriage return goes with
it; where the input ends at the dot, the break after `text:` decides. -/

namespace MailSieve.TextBlock
open Text

def stuffLine : List Char → List Char
  | '.' :: cs => '.' :: '.' :: cs
  | cs => cs

def unstuffLine : List Char → List Char
  | '.' :: '.' :: cs => '.' :: cs
  | cs => cs

/-- The lines of a value as they stand in a literal. -/
def stuff (value : List Char) : List Char := joinSegments ((segments value).map stuffLine)

def isDotLine (line : List Char) : Bool := stripEnd '\r' line == ['.']

/-- The lines before the first dot line, that line, and the lines after it. -/
def splitAtDot : List (List Char) → Option (List (List Char) × List Char × List (List Char))
  | [] => none
  | l :: ls =>
    if isDotLine l then some ([], l, ls)
    else (splitAtDot ls).map fun r => (l :: r.1, r.2.1, r.2.2)

def valueOf (crlf : Bool) (lines : List (List Char)) : List Char :=
  let joined := joinSegments (lines.map unstuffLine)
  if crlf then stripEnd '\r' joined else joined

inductive Result where
  | noBreak (lead rest : List Char)
  | unclosed (text : List Char)
  | closed (value text rest : List Char)
deriving DecidableEq

/-- The lines from the second on. `lead` holds the first line with its break, `crlf` says of which
kind that break is. -/
def scanBody (crlf : Bool) (lead body : List Char) : Result :=
  match splitAtDot (segments body) with
  | none => .unclosed (lead ++ body)
  | some (lines, dot, []) =>
    .closed (valueOf crlf lines) (lead ++ joinSegments (lines ++ [dot])) []
  | some (lines, dot, more) =>
    .closed (valueOf (dot.getLast? == some '\r') lines)
      (lead ++ joinSegments (lines ++ [dot]) ++ ['\n']) (joinSegments more)

def isInlineBlank (c : Char) : Bool := c == ' ' || c == '\t'

def isLineText (c : Char) : Bool := c != '\n'

/-- The rest of the `text:` line without its break. A comment reaches to the line feed, so that it
takes in a carriage return before it. -/
def headerLead (cs : List Char) : List Char :=
  let blanks := cs.takeWhile isInlineBlank
  let rest := cs.dropWhile isInlineBlank
  if rest.head? = some '#' then blanks ++ rest.takeWhile isLineText else blanks

def afterHeader (cs : List Char) : List Char :=
  let rest := cs.dropWhile isInlineBlank
  if rest.head? = some '#' then rest.dropWhile isLineText else rest

/-- What follows `text:`. -/
def scanTextBlock (cs : List Char) : Result :=
  match afterHeader cs with
  | '\r' :: '\n' :: body => scanBody true (headerLead cs ++ ['\r', '\n']) body
  | '\n' :: body => scanBody false (headerLead cs ++ ['\n']) body
  | rest => .noBreak (headerLead cs) rest

def Result.all : Result → List Char
  | noBreak lead rest => lead ++ rest
  | unclosed text => text
  | closed _ text rest => text ++ rest

theorem headerLead_append (cs : List Char) : headerLead cs ++ afterHeader cs = cs := by
  rw [headerLead, afterHeader]
  split
  · rw [List.append_assoc, List.takeWhile_append_dropWhile, List.takeWhile_append_dropWhile]
  · rw [List.takeWhile_append_dropWhile]

theorem splitAtDot_append {ls before after : List (List Char)} {dot : List Char}
    (h : splitAtDot ls = some (before, dot, after)) : before ++ dot :: after = ls := by
  induction ls generalizing before with
  | nil => simp [splitAtDot] at h
  | cons l ls ih =>
    rw [splitAtDot] at h
    split at h
    · simp only [Option.some.injEq, Prod.mk.injEq] at h
      obtain ⟨rfl, rfl, rfl⟩ := h
      rfl
    · obtain ⟨⟨b, d, a⟩, hr, he⟩ := Option.map_eq_some_iff.1 h
      simp only [Prod.mk.injEq] at he
      obtain ⟨rfl, rfl, rfl⟩ := he
      rw [List.cons_append, ih hr]

theorem joinSegments_append_cons (ss : List (List Char)) (s t : List Char) (ts : List (List Char)) :
    joinSegments (ss ++ s :: t :: ts)
      = joinSegments (ss ++ [s]) ++ '\n' :: joinSegments (t :: ts) := by
  induction ss with
  | nil => simp [joinSegments, List.intercalate]
  | cons r ss ih =>
    cases ss with
    | nil => simp [joinSegments, List.intercalate] at ih ⊢
    | cons q qs =>
      simp only [joinSegments, List.intercalate, List.cons_append, List.intersperse_cons_cons,
        List.flatten_cons] at ih ⊢
      rw [ih]
      simp

theorem all_scanBody (crlf : Bool) (lead body : List Char) :
    (scanBody crlf lead body).all = lead ++ body := by
  rw [scanBody]
  split
  · rfl
  · next lines dot h =>
    simp only [Result.all, List.append_nil]
    rw [splitAtDot_append h, joinSegments_segments]
  · next lines dot more hne h =>
    have ha := splitAtDot_append h
    cases more with
    | nil => exact absurd rfl hne
    | cons t ts =>
      simp only [Result.all, List.append_assoc]
      rw [← joinSegments_segments body, ← ha, joinSegments_append_cons]
      simp

theorem all_scanTextBlock (cs : List Char) : (scanTextBlock cs).all = cs := by
  have h := headerLead_append cs
  rw [scanTextBlock]
  split
  · next body hb => rw [hb] at h; rw [all_scanBody, List.append_assoc]; exact h
  · next body hb => rw [hb] at h; rw [all_scanBody, List.append_assoc]; exact h
  · exact h

end MailSieve.TextBlock
