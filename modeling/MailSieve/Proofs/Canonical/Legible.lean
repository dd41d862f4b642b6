import MailSieve.Proofs.Canonical.Token
import MailSieve.Proofs.Phrase.Induction
import MailSieve.Proofs.Lexing.Spelled

/-! Canonical text is read as its own tokens.
Every word, tag and number of it is followed by a space, a line break or punctuation, and every
token is one that a text can denote. In a plain layout nothing else is needed. -/

namespace MailSieve

namespace Layout

/-- Line breaks are of a usual kind and indentation is blank. -/
structure Plain (l : Layout) : Prop where
  newline : l.newline = "\n" ∨ l.newline = "\r\n"
  indent : ∀ c ∈ l.indent.toList, Trivia.isBlank c = true

theorem standard_plain : standard.Plain where
  newline := .inl rfl
  indent := by
    intro c hc
    have hspace : c = ' ' := by simpa [standard] using hc
    rw [hspace]
    rfl

end Layout

namespace Mark

def isOpen : Mark → Bool
  | token (.word _) | token (.tag _) | token (.number _ _) => true
  | _ => false

def bounds : Mark → Bool
  | space | line _ | token (.mark _) => true
  | _ => false

def Spelled : Mark → Prop
  | token t => t.Spelled
  | space | line _ => True

end Mark

namespace Canonical

variable {m : Mark} {ms ns : List Mark}

def Led (ms : List Mark) : Prop := ∀ m ∈ ms.head?, m.bounds = true

/-- Every mark is read back where it stands. -/
def Legible : List Mark → Prop
  | [] => True
  | m :: ms => m.Spelled ∧ (m.isOpen = true → Led ms) ∧ Legible ms

/-- Legible behind any mark. -/
structure Trails (ms : List Mark) : Prop where
  led : Led ms
  legible : Legible ms

theorem Legible.cons (hm : m.Spelled) (h : Trails ms) : Legible (m :: ms) :=
  ⟨hm, fun _ => h.led, h.legible⟩

theorem Legible.closed (hm : m.Spelled) (ho : m.isOpen = false) (h : Legible ms) :
    Legible (m :: ms) := ⟨hm, fun hm => by simp [ho] at hm, h⟩

theorem Trails.nil : Trails [] := ⟨nofun, trivial⟩

theorem Trails.cons (hm : m.bounds = true) (h : Legible ms) : Trails (m :: ms) := by
  refine ⟨fun n hn => ?_, ?_⟩
  · cases hn
    exact hm
  · cases m with
    | space | line => exact h.closed trivial rfl
    | token t => cases t <;> first | exact h.closed trivial rfl | cases hm

theorem Legible.append (h : Legible ms) (k : Trails ns) : Legible (ms ++ ns) := by
  induction ms with
  | nil => exact k.legible
  | cons m ms ih =>
    obtain ⟨hm, hl, h⟩ := h
    refine ⟨hm, fun ho => ?_, ih h⟩
    cases ms with
    | nil => exact k.led
    | cons m' ms => exact hl ho

theorem Trails.append (h : Trails ms) (k : Trails ns) : Trails (ms ++ ns) := by
  refine ⟨?_, h.legible.append k⟩
  cases ms with
  | nil => exact k.led
  | cons m ms => exact h.led

end Canonical

section Rendering

open Canonical

variable {l : Layout} {ms : List Mark}

namespace Layout

theorem renderChars_cons (m : Mark) :
    l.renderChars (m :: ms) = m.pieces.flatMap l.renderPiece ++ l.renderChars ms := by
  rw [renderChars, List.flatMap_cons, List.flatMap_append]
  rfl

theorem Plain.newline_toList (h : l.Plain) :
    l.newline.toList = ['\n'] ∨ l.newline.toList = ['\r', '\n'] := by
  obtain h | h := h.newline
  · exact .inl (by rw [h]; rfl)
  · exact .inr (by rw [h]; rfl)

theorem Plain.breakBefore_blank (h : l.Plain) (depth : Nat) :
    ∀ c ∈ l.breakBefore depth, Trivia.isBlank c = true := by
  intro c hc
  rw [breakBefore, List.mem_append] at hc
  obtain hc | hc := hc
  · obtain h | h := h.newline_toList <;> rw [h] at hc
    · cases List.mem_singleton.1 hc
      rfl
    · simp only [List.mem_cons, List.not_mem_nil, or_false] at hc
      obtain rfl | rfl := hc <;> rfl
  · obtain ⟨cs, hcs, hc⟩ := List.mem_flatten.1 hc
    rw [List.eq_of_mem_replicate hcs] at hc
    exact h.indent c hc

theorem Plain.bounded_break (h : l.Plain) (depth : Nat) (cs : List Char) :
    Bounded (l.breakBefore depth ++ cs) := by
  rw [breakBefore]
  obtain h | h := h.newline_toList <;> rw [h] <;> rintro c ⟨⟩ <;> exact ⟨rfl, by decide⟩

theorem bounded_renderChars (hl : l.Plain) (h : Led ms) : Bounded (l.renderChars ms) := by
  cases ms with
  | nil => exact nofun
  | cons m ms =>
    have hm := h m rfl
    rw [renderChars_cons]
    cases m with
    | space =>
      rintro c ⟨⟩
      exact ⟨rfl, by decide⟩
    | line depth =>
      rw [Mark.pieces, List.flatMap_singleton]
      exact hl.bounded_break depth _
    | token t =>
      cases t with
      | mark p =>
        rintro c ⟨⟩
        cases p <;> exact ⟨rfl, by decide⟩
      | _ => cases hm

theorem spells_pieces (hl : l.Plain) {t : Token} (ht : t.Spelled) {rest : List Char}
    (hr : (Mark.token t).isOpen = true → Bounded rest) :
    Spells (t.pieces.flatMap l.renderPiece) t rest := by
  cases t with
  | tag name => simpa [Token.pieces, renderPiece] using spells_tag ht (hr rfl)
  | word name => simpa [Token.pieces, renderPiece] using spells_word ht (hr rfl)
  | number value q => simpa [Token.pieces, renderPiece] using spells_number ht (hr rfl)
  | mark p => simpa [Token.pieces, renderPiece] using spells_mark p
  | endOfInput => exact ht.elim
  | string value multiline =>
    cases multiline with
    | false => simpa [Token.pieces, renderPiece] using spells_quoted value
    | true =>
      simpa [Token.pieces, renderPiece, breakBefore] using
        (spells_textBlock hl.newline_toList value : Spells _ _ rest)

/-- Legible marks in a plain layout are read as their tokens. -/
theorem lexed_renderChars (hl : l.Plain) (h : Legible ms) :
    Lexed (l.renderChars ms) (tokens ms) := by
  induction ms with
  | nil => exact .stop rfl
  | cons m ms ih =>
    obtain ⟨hm, ho, h⟩ := h
    rw [renderChars_cons]
    cases m with
    | space => exact (ih h).blank rfl
    | line depth =>
      refine (ih h).blanks ?_
      simpa [Mark.pieces, renderPiece] using hl.breakBefore_blank depth
    | token t =>
      refine (ih h).spells (spells_pieces hl hm fun hop => bounded_renderChars hl (ho hop)) ?_
      rintro rfl
      exact hm

end Layout

end Rendering

section Trees

open Canonical Mark Phrase

variable {ms : List Mark} {name : String}

theorem TestKeyword.word_identifier (k : TestKeyword) : isIdentifier k.word = true := by
  cases k <;> rfl

theorem CommandKeyword.word_identifier (k : CommandKeyword) : isIdentifier k.word = true := by
  cases k <;> rfl

namespace Canonical

theorem Legible.string (s : StringLit) : Legible [stringMark s] := .cons trivial .nil

theorem Legible.quoted (value : String) : Legible [Mark.quoted value] := .cons trivial .nil

theorem Legible.number (n : NumberLit) : Legible [numberMark n] := by
  refine .cons (fun q hq => ?_) .nil
  have hq := (Option.filter_eq_some_iff.1 hq).2
  exact Nat.dvd_of_mod_eq_zero (by simpa using hq)

theorem Legible.commaSeparated {mss : List (List Mark)} (h : ∀ ms ∈ mss, Legible ms) :
    Legible (commaSeparated mss) := by
  induction mss with
  | nil => trivial
  | cons ms mss ih =>
    rw [List.forall_mem_cons] at h
    cases mss with
    | nil => exact h.1
    | cons ns mss => exact h.1.append (.cons rfl (.closed trivial rfl (ih h.2)))

theorem Trails.bracket (h : Legible ms) (p q : Punctuation) :
    Trails (punctuation p :: ms ++ [punctuation q]) := by
  rw [List.cons_append]
  exact .cons rfl (h.append (.cons rfl trivial))

theorem Legible.list (h : ∀ m ∈ ms, Legible [m]) : Legible (listMarks ms) := by
  unfold listMarks
  split
  · next m => exact h m List.mem_cons_self
  · refine (Trails.bracket (.commaSeparated fun ns hn => ?_) _ _).legible
    obtain ⟨m, hm, rfl⟩ := List.mem_map.1 hn
    exact h m hm

theorem Legible.stringList (l : StringList) : Legible (stringListMarks l) := by
  refine .list fun m hm => ?_
  obtain ⟨s, -, rfl⟩ := List.mem_map.1 hm
  exact .string s

theorem Trails.spaced (h : Legible ms) : Trails (spaced ms) := .cons rfl h

theorem Trails.tag (h : isIdentifier name = true) : Trails [.space, Mark.tag name] :=
  .cons rfl (.cons h .nil)

theorem Trails.tagIf (h : isIdentifier name = true) (b : Bool) : Trails (tagIf name b) := by
  cases b
  · exact .nil
  · exact .tag h

theorem Trails.tagWith {α : Type} {marks : α → List Mark} (h : isIdentifier name = true)
    (hm : ∀ a, Legible (marks a)) (a : Option α) : Trails (tagWith name marks a) := by
  cases a with
  | none => exact .nil
  | some a => exact .cons rfl (.cons h (.cons rfl (hm a)))

theorem Trails.taggedString (h : isIdentifier name = true) (s : Option StringLit) :
    Trails (taggedString name s) := .tagWith h .string s

theorem Trails.taggedStrings (h : isIdentifier name = true) (l : Option StringList) :
    Trails (taggedStrings name l) := .tagWith h .stringList l

theorem Trails.taggedNumber (h : isIdentifier name = true) (n : Option NumberLit) :
    Trails (taggedNumber name n) := .tagWith h .number n

theorem Trails.tagNamed {α : Type} {word : α → String} (h : ∀ a, isIdentifier (word a) = true)
    (a : Option α) : Trails (tagNamed word a) := by
  cases a with
  | none => exact .nil
  | some a => exact .tag (h a)

theorem Trails.options (o : MatchOptions) : Trails (optionMarks o) := by
  refine .append (.append (.tagNamed (fun m => by cases m <;> rfl) _) ?_) (.taggedString rfl _)
  cases o.relational with
  | none => exact .nil
  | some r => exact .cons rfl (.cons (by cases r.kind <;> rfl) (.cons rfl (.cons trivial .nil)))

theorem Trails.part (p : Option AddressPart) : Trails (partMarks p) :=
  .tagNamed (fun p => by cases p <;> rfl) p

theorem Trails.transform (t : Option BodyTransform) : Trails (transformMarks t) := by
  match t with
  | none => exact .nil
  | some .raw => exact .tag rfl
  | some .text => exact .tag rfl
  | some (.content types) => exact .taggedStrings rfl (some types)

theorem Trails.string (s : StringLit) : Trails (Canonical.spaced [stringMark s]) :=
  .spaced (.string s)

theorem Trails.stringList (l : StringList) : Trails (Canonical.spaced (stringListMarks l)) :=
  .spaced (.stringList l)

theorem Legible.keyword (k : TestKeyword) (h : Trails ms) : Legible (keyword k :: ms) :=
  .cons k.word_identifier h

theorem Trails.parenthesized (mss : List (List Mark)) (h : ∀ ms ∈ mss, Legible ms) :
    Trails (Canonical.parenthesized mss) := .bracket (.commaSeparated h) _ _

end Canonical

theorem legible_clause {t : Test} {k : TestKeyword} {c : Clause} (h : t.clause? = some (k, c)) :
    Legible (testMarks t) := by
  cases t with
  | negation | allOf | anyOf | generic => cases h
  | always => exact .keyword _ .nil
  | never => exact .keyword _ .nil
  | address t =>
    exact .keyword _ ((((Trails.part _).append (.options _)).append (.stringList _)).append
      (.stringList _))
  | envelope t =>
    exact .keyword _ ((((Trails.part _).append (.options _)).append (.stringList _)).append
      (.stringList _))
  | header t =>
    exact .keyword _ (((Trails.options _).append (.stringList _)).append (.stringList _))
  | string t =>
    exact .keyword _ (((Trails.options _).append (.stringList _)).append (.stringList _))
  | headerExists => exact .keyword _ (.stringList _)
  | ihave => exact .keyword _ (.stringList _)
  | size t =>
    have hname : isIdentifier (if t.above then "over" else "under") = true := by split <;> rfl
    exact .keyword _ (.cons rfl (.cons hname (.spaced (.number _))))
  | body t =>
    exact .keyword _ (((Trails.transform _).append (.options _)).append (.stringList _))
  | date t =>
    exact .keyword _ ((((((Trails.taggedString rfl _).append (.tagIf rfl _)).append
      (.options _)).append (.string _)).append (.string _)).append (.stringList _))
  | currentDate t =>
    exact .keyword _ ((((Trails.taggedString rfl _).append (.options _)).append
      (.string _)).append (.stringList _))
  | hasFlag t =>
    obtain ⟨options, _ | names, flags, l⟩ := t
    · exact .keyword _ (((Trails.options _).append .nil).append (.stringList _))
    · exact .keyword _ (((Trails.options _).append (.stringList _)).append (.stringList _))
  | duplicate t =>
    exact .keyword _ (((((Trails.taggedString rfl _).append (.taggedString rfl _)).append
      (.taggedString rfl _)).append (.taggedNumber rfl _)).append (.tagIf rfl _))

theorem legible_tests {ts : List Test} (h : ∀ t ∈ ts, t.Obeys .checked → Legible (testMarks t))
    (hc : TestsObey .checked ts) : Trails (parenthesized (testsMarks ts)) := by
  refine .parenthesized _ fun ms hm => ?_
  rw [testsMarks_eq_map] at hm
  obtain ⟨t, ht, rfl⟩ := List.mem_map.1 hm
  exact h t ht (testsObey_iff.1 hc t ht)

theorem legible_arguments {as : List Argument}
    (h : ∀ ts l, .tests ts l ∈ as → ∀ t ∈ ts, t.Obeys .checked → Legible (testMarks t))
    (hc : ArgumentsObey .checked as) : Trails (argumentsMarks as) := by
  induction as with
  | nil => exact .nil
  | cons a as ih =>
    refine .append (.spaced ?_) (ih (fun ts l hm => h ts l (List.mem_cons_of_mem a hm)) hc.2)
    cases a with
    | tag name l => exact .cons hc.1.1 .nil
    | number n => exact .number n
    | string s => exact .string s
    | strings l => exact .stringList l
    | tests ts l => exact (legible_tests (h ts l List.mem_cons_self) hc.1.2.1).legible

theorem legible_test (t : Test) : t.Obeys .checked → Legible (testMarks t) := by
  refine TestCases.test (P := fun t => t.Obeys .checked → Legible (testMarks t))
    ⟨?_, ?_, ?_, ?_, ?_⟩ t
  · exact fun h _ => legible_clause h
  · exact fun ih hc => .keyword _ (.spaced (ih hc.1))
  · exact fun ih hc => .keyword _ (.cons rfl (legible_tests ih hc.2.1).legible)
  · exact fun ih hc => .keyword _ (.cons rfl (legible_tests ih hc.2.1).legible)
  · exact fun ih hc => .cons hc.1.1 (legible_arguments ih hc.2.2.1)

theorem Canonical.Legible.terminated (h : Legible ms) : Legible (terminated ms) :=
  h.append (.cons rfl trivial)

theorem Canonical.Legible.command (k : CommandKeyword) (h : Trails ms) :
    Legible (commandWord k :: ms) := .cons k.word_identifier h

theorem legible_commandClause {c : Command} {k : CommandKeyword} {cl : Clause}
    (h : c.clause? = some (k, cl)) (depth : Nat) : Legible (commandMarks depth c) := by
  cases c with
  | ifTest | generic | genericBlock => cases h
  | stop => exact .terminated (.command _ .nil)
  | discard => exact .terminated (.command _ .nil)
  | require c =>
    refine .terminated (.command _ (.spaced (.list fun m hm => ?_)))
    obtain ⟨name, -, rfl⟩ := List.mem_map.1 hm
    exact .quoted name
  | keep c => exact .terminated (.command _ (.taggedStrings rfl _))
  | fileInto c =>
    exact .terminated (.command _ ((((Trails.tagIf rfl _).append (.tagIf rfl _)).append
      (.taggedStrings rfl _)).append (.string _)))
  | redirect c => exact .terminated (.command _ ((Trails.tagIf rfl _).append (.string _)))
  | reject c => exact .terminated (.command _ (.string _))
  | setVariable c =>
    have hmods (ms : List SetModifier) :
        Trails (ms.flatMap fun m => [.space, Mark.tag m.word]) := by
      induction ms with
      | nil => exact .nil
      | cons m ms ih =>
        have hm : Trails [.space, Mark.tag m.word] := .tag (by cases m <;> rfl)
        exact hm.append ih
    exact .terminated (.command _ (((hmods _).append (.string _)).append (.string _)))
  | vacation c =>
    exact .terminated (.command _ ((((((((Trails.taggedNumber rfl _).append
      (.taggedNumber rfl _)).append (.taggedString rfl _)).append (.taggedString rfl _)).append
      (.taggedStrings rfl _)).append (.tagIf rfl _)).append (.taggedString rfl _)).append
      (.string _)))
  | notify c =>
    have hword (i : Importance) : Legible [quoted i.word] := .quoted i.word
    have himportance : Trails (tagWith "importance" (fun i => [quoted i.word]) c.importance) :=
      .tagWith rfl hword _
    exact .terminated (.command _ (((((Trails.taggedString rfl _).append himportance).append
      (.taggedStrings rfl _)).append (.taggedString rfl _)).append (.string _)))
  | flag c =>
    obtain ⟨action, name, flags, l⟩ := c
    have haction : isIdentifier action.word = true := by cases action <;> rfl
    cases name with
    | none => exact .terminated (.cons haction (Trails.nil.append (.stringList _)))
    | some name => exact .terminated (.cons haction ((Trails.string name).append (.stringList _)))

theorem trails_lines {depth : Nat} {cs : List Command}
    (h : ∀ c ∈ cs, Legible (commandMarks depth c)) : Trails (linesMarks depth cs) := by
  induction cs with
  | nil => exact .nil
  | cons c cs ih =>
    rw [List.forall_mem_cons] at h
    exact .cons rfl (h.1.append (ih h.2))

theorem commandCases_legible : CommandCases
    (fun c => ∀ depth, c.Obeys .checked → Legible (commandMarks depth c))
    (fun b => ∀ depth, b.Obeys .checked → Legible (blockMarks depth b))
    (fun c => ∀ depth, c.Obeys .checked → Trails (chainMarks depth c)) where
  clause h depth _ := legible_commandClause h depth
  ifTest := by
    intro t b ch l hb hch depth hc
    obtain ⟨ht, hbc, hcc, -⟩ := hc
    exact .command _ (((Trails.spaced (legible_test t ht)).append (.spaced (hb depth hbc))).append
      (hch depth hcc))
  generic := by
    intro name as l depth hc
    exact .terminated (.cons hc.1.1 (legible_arguments (fun _ _ _ t _ => legible_test t) hc.2.2.1))
  genericBlock := by
    intro name as b l hb depth hc
    obtain ⟨hname, -, hca, hbc, -⟩ := hc
    exact .cons hname.1 ((legible_arguments (fun _ _ _ t _ => legible_test t) hca).append
      (.spaced (hb depth hbc)))
  block := by
    intro cs l ih depth hc
    have hcs : ∀ c ∈ cs, Legible (commandMarks (depth + 1) c) := fun c hm =>
      ih c hm (depth + 1) (commandsObey_iff.1 hc.1 c hm)
    cases cs with
    | nil =>
      have hnone : Legible [] := trivial
      exact (Trails.bracket hnone _ _).legible
    | cons c cs =>
      rw [List.forall_mem_cons] at hcs
      have hline : Trails (.line (depth + 1) :: commandMarks (depth + 1) c) := .cons rfl hcs.1
      have hend : Trails [.line depth, punctuation .closeBrace] := .cons rfl (.cons trivial .nil)
      exact .cons trivial ((hline.append (trails_lines hcs.2)).append hend)
  done := fun _ _ => .nil
  elsif := by
    intro t b ch l hb hch depth hc
    obtain ⟨ht, hbc, hcc, -⟩ := hc
    exact .cons rfl (.command _ (((Trails.spaced (legible_test t ht)).append
      (.spaced (hb depth hbc))).append (hch depth hcc)))
  otherwise := by
    intro b l hb depth hc
    exact .cons rfl (.command _ (.spaced (hb depth hc.1)))

theorem legible_script {s : Script} (hc : s.Obeys .checked) : Legible (scriptMarks s.commands) := by
  have h : ∀ c ∈ s.commands, Legible (commandMarks 0 c) := fun c hm =>
    commandCases_legible.command c 0 (commandsObey_iff.1 hc.1 c hm)
  cases hs : s.commands with
  | nil => trivial
  | cons c cs =>
    rw [hs, List.forall_mem_cons] at h
    exact h.1.append (trails_lines h.2)

/-- A checked script is written in a plain layout so that it is read as its own tokens. -/
theorem lexes_generate {s : Script} {l : Layout} (hc : s.Obeys .checked) (hl : l.Plain) :
    Lexes (s.generate l) (tokens (scriptMarks s.commands)) := by
  rw [lexes_iff, Script.generate, Layout.render, String.toList_ofList]
  exact l.lexed_renderChars hl (legible_script hc)

end Trees

end MailSieve
