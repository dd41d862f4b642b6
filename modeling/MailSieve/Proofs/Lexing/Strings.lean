import MailSieve.Canonical.Generate
import MailSieve.Proofs.Lexing.Resumed

/-! Strings as they are written and as they are read.
A quoted string is read back whatever follows it, and every quoted string that is read stands in its
source as it would be written: quoting puts a backslash before each backslash and then one before
each double quote. A multi-line literal is read back under both kinds of line break. -/

namespace MailSieve

open Canonical

namespace Scanner

/-- A call at `text` takes it for the token, wherever it stands, and leaves the scanner at `rest`.
-/
def Takes (text : List Char) (t : Token) (rest : List Char) : Prop :=
  ∀ p, (Scanner.mk p (text ++ rest)).read = .ok ⟨t, ⟨p, p.after text⟩, text⟩
    ∧ (Scanner.mk p (text ++ rest)).next = ⟨p.after text, rest⟩

variable {c : Char} {cs text rest : List Char} {t : Token}

theorem takes_of_scan (h : scan (text ++ rest) = ⟨[], text, .ok t, rest⟩) : Takes text t rest := by
  intro p
  rw [read, next, h]
  exact ⟨rfl, rfl⟩

theorem Takes.unique {t' : Token} (h : Takes text t rest) (h' : Takes text t' rest) : t = t' := by
  have hread := (h .origin).1.symm.trans (h' .origin).1
  exact (Lexeme.mk.inj (Except.ok.inj hread)).1

theorem takes_of_spells (h : Spells (c :: cs) t rest) (hc : startsToken c = true)
    (hne : t ≠ .endOfInput) : Takes (c :: cs) t rest := by
  obtain ⟨hout, hrest⟩ := h
  have hscan : scan (c :: cs ++ rest) = scanToken (c :: (cs ++ rest)) := scan_token hc
  have hnil : Follows (scanToken (c :: (cs ++ rest))).rest [] := .of_cut List.nil_prefix
  have hall := scan_append (c :: cs ++ rest)
  rw [hscan] at hout hrest hall
  have hbefore := (scanToken_follow hout hne hnil fun _ _ => rfl).1
  rw [Scan.all, hbefore, hrest, List.nil_append, List.append_cancel_right_eq] at hall
  refine takes_of_scan ?_
  rw [hscan, ← hout, ← hall, ← hbefore]
  exact congrArg (Scan.mk _ _ _) hrest

end Scanner

namespace Quoted

def backslashed (c : Char) (cs : List Char) : List Char :=
  cs.flatMap fun d => if d = c then ['\\', d] else [d]

theorem quote_eq_backslashed (cs : List Char) :
    quote cs = backslashed '"' (backslashed '\\' cs) := by
  induction cs with
  | nil => rfl
  | cons c cs ih =>
    rw [quote, ih]
    by_cases hb : c = '\\'
    · subst hb
      rfl
    · by_cases hq : c = '"'
      · subst hq
        rfl
      · simp [backslashed, hb, hq]

/-- What stands between the quotes is the only way to write the value. -/
theorem text_of_closed {cs value text rest : List Char}
    (h : scanQuoted cs = .closed value text rest) : text = quote value ++ ['"'] := by
  fun_induction scanQuoted cs generalizing value text with
  | case1 => cases h
  | case2 cs =>
    cases h
    rfl
  | case3 => cases h
  | case4 c cs hc ih =>
    obtain ⟨v, t, hr, rfl, rfl⟩ := Result.push_eq_closed.1 h
    rw [ih hr, quote, if_pos hc]
    rfl
  | case5 => cases h
  | case6 c cs hquote hlast hescape ih =>
    obtain ⟨v, t, hr, rfl, rfl⟩ := Result.push_eq_closed.1 h
    have hc : ¬ (c = '\\' ∨ c = '"') := by
      rintro (hc | hc)
      · cases cs with
        | nil => exact hlast hc rfl
        | cons d cs => exact hescape d cs hc rfl
      · exact hquote hc
    rw [ih hr, quote, if_neg hc]
    rfl

end Quoted

section Quotes

variable {cs : List Char} {v : String}

theorem scanToken_quoted (h : (scanToken cs).outcome = .ok (.string v false)) :
    (scanToken cs).text = '"' :: (Quoted.quote v.toList ++ ['"']) := by
  cases cs with
  | nil => cases h
  | cons c cs =>
    cases tokenAt_of_outcome h with
    | quoted hclosed htext => rw [htext, Quoted.text_of_closed hclosed, String.toList_ofList]

end Quotes

namespace Scanner

section Written

variable {l : Layout} {source v : String} {n : Nat} {lexeme : Lexeme}

theorem At.quoted {s : Scanner} (h : s.At source) (hread : s.read = .ok lexeme)
    (ht : lexeme.token = .string v false) :
    textBetween source lexeme.location.start.offset lexeme.location.stop.offset
      = String.ofList ('"' :: (Quoted.quote v.toList ++ ['"'])) := by
  have hout : (scan s.rest).outcome = .ok (.string v false) := ht ▸ reading_ok hread
  rw [location_of_reading hread, Scan.locate]
  exact (h.slice (scan_in s.rest)).2.trans (congrArg String.ofList (scanToken_quoted hout))

/-- A quoted string is written by doubling what needs it, it is read back from there before any
text, and wherever it is read the source has just this text for it. -/
theorem quoted_written (l : Layout) (v : String) (place : Option Location) :
    let text := '"' :: (Quoted.backslashed '"' (Quoted.backslashed '\\' v.toList) ++ ['"'])
    l.renderChars [stringMark ⟨v, false, place⟩] = text
      ∧ (∀ rest, Takes text (.string v false) rest)
      ∧ ∀ source n lexeme, (after source n).read = .ok lexeme → lexeme.token = .string v false →
        textBetween source lexeme.location.start.offset lexeme.location.stop.offset
          = String.ofList text := by
  intro text
  have htext : text = '"' :: (Quoted.quote v.toList ++ ['"']) := by
    rw [Quoted.quote_eq_backslashed]
  rw [htext]
  refine ⟨?_, fun rest => ?_, fun source n lexeme hread ht => ?_⟩
  · simp [Layout.renderChars, stringMark, Mark.pieces, Token.pieces, Layout.renderPiece]
  · exact takes_of_spells (spells_quoted v) rfl (by simp)
  · exact (at_after source n).quoted hread ht

/-- Reading finds the string behind the character that is no token. -/
theorem quoted_written_escapes :
    let source := "@ \"é\\\"\\\\\";"
    let lexeme : Lexeme :=
      ⟨.string "é\"\\" false, ⟨⟨2, 1, 3⟩, ⟨10, 1, 10⟩⟩, "\"é\\\"\\\\\"".toList⟩
    (after source 1).read = .ok lexeme ∧ lexeme.token = .string "é\"\\" false
      ∧ textBetween source 2 10 = String.ofList
        ('"' :: (Quoted.backslashed '"' (Quoted.backslashed '\\' "é\"\\".toList) ++ ['"'])) := by
  intro source lexeme
  have hread : (after source 1).read = .ok lexeme := by decide +kernel
  exact ⟨hread, rfl, (quoted_written .standard "é\"\\" none).2.2 source 1 lexeme hread rfl⟩

/-- A multi-line literal is read back before any text, under both kinds of line break. -/
theorem multiline_written (hl : l.newline = "\n" ∨ l.newline = "\r\n") (v : String)
    (place : Option Location) (rest : List Char) :
    Takes (l.renderChars [stringMark ⟨v, true, place⟩]) (.string v true) rest := by
  have hnewline : l.newline.toList = ['\n'] ∨ l.newline.toList = ['\r', '\n'] :=
    hl.imp (fun h => by rw [h]; rfl) fun h => by rw [h]; rfl
  have htext : l.renderChars [stringMark ⟨v, true, place⟩] = ['t', 'e', 'x', 't', ':']
      ++ (l.newline.toList ++ (TextBlock.stuff v.toList
        ++ (l.newline.toList ++ '.' :: l.newline.toList))) := by
    simp [Layout.renderChars, stringMark, Mark.pieces, Token.pieces, Layout.renderPiece,
      Layout.breakBefore]
  rw [htext]
  exact takes_of_spells (spells_textBlock hnewline v) rfl (by simp)

/-- Lines that look like the end of the literal, and a carriage return at the end of the value. -/
theorem multiline_written_dots :
    let l : Layout := ⟨"\t", "\r\n"⟩
    (l.newline = "\n" ∨ l.newline = "\r\n")
      ∧ Takes (l.renderChars [stringMark ⟨".\n..\r\n\n.\r", true, none⟩])
        (.string ".\n..\r\n\n.\r" true) ".\r\n".toList :=
  ⟨.inr rfl, multiline_written (.inr rfl) _ _ _⟩

end Written

end Scanner

end MailSieve
