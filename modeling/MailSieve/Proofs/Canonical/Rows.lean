import MailSieve.Proofs.Canonical.Token
import MailSieve.Proofs.Phrase.Induction

/-! What a layout fills in.
The canonical text of a tree is a list of rows that no layout has a part in, each with a depth. A
layout only joins them by its line break, each behind as many indentations as it is deep. A row is
begun by a command or by the brace that closes a block, in the order and at the depth in which these
stand in the tree, or it belongs to a multi-line literal, and is not indented at all. -/

namespace MailSieve

structure TextRow where
  depth : Nat
  body : List Char

/-- The text before the first line break, and the rows behind the line breaks. -/
def rowsOf : List Piece → List Char × List TextRow
  | [] => ([], [])
  | .text cs :: ps => (cs ++ (rowsOf ps).1, (rowsOf ps).2)
  | .line depth :: ps => ([], ⟨depth, (rowsOf ps).1⟩ :: (rowsOf ps).2)

namespace Canonical

def marksRows (ms : List Mark) : List Char × List TextRow := rowsOf (ms.flatMap Mark.pieces)

theorem marksRows_text {m : Mark} {cs : List Char} (hm : m.pieces = [.text cs]) (ms : List Mark) :
    marksRows (m :: ms) = (cs ++ (marksRows ms).1, (marksRows ms).2) := by
  rw [marksRows, List.flatMap_cons, hm]
  rfl

theorem marksRows_line (depth : Nat) (ms : List Mark) :
    marksRows (.line depth :: ms) = ([], ⟨depth, (marksRows ms).1⟩ :: (marksRows ms).2) := rfl

theorem marksRows_literal (value : String) (ms : List Mark) :
    marksRows (.token (.string value true) :: ms) = ("text:".toList,
      ⟨0, TextBlock.stuff value.toList⟩ :: ⟨0, ['.']⟩ :: ⟨0, (marksRows ms).1⟩
        :: (marksRows ms).2) := by
  simp only [marksRows, List.flatMap_cons, Mark.pieces, Token.pieces, List.cons_append,
    List.nil_append, rowsOf, List.append_nil]
  rfl

end Canonical

/-- The rows of a script, whose first command stands on a line like all others. -/
def Script.rows (s : Script) : List TextRow :=
  (Canonical.marksRows (Canonical.linesMarks 0 s.commands)).2

namespace Layout

def renderRow (l : Layout) (r : TextRow) : List Char :=
  (List.replicate r.depth l.indent.toList).flatten ++ r.body

theorem renderPieces_rows (l : Layout) (ps : List Piece) : ps.flatMap l.renderPiece
    = (rowsOf ps).1 ++ (rowsOf ps).2.flatMap fun r => l.newline.toList ++ l.renderRow r := by
  induction ps with
  | nil => rfl
  | cons p ps ih =>
    rw [List.flatMap_cons, ih]
    cases p with
    | text cs => rw [renderPiece, rowsOf, List.append_assoc]
    | line depth =>
      rw [renderPiece, breakBefore, rowsOf, List.nil_append, List.flatMap_cons, renderRow,
        List.append_assoc, List.append_assoc, List.append_assoc]

theorem intercalate_rows (l : Layout) (r : TextRow) (rs : List TextRow) :
    List.intercalate l.newline.toList ((r :: rs).map l.renderRow)
      = l.renderRow r ++ rs.flatMap fun r => l.newline.toList ++ l.renderRow r := by
  induction rs generalizing r with
  | nil => simp
  | cons s rs ih =>
    rw [List.map_cons, List.map_cons, List.intercalate_cons_cons, ← List.map_cons, ih,
      List.flatMap_cons, List.append_assoc, List.append_assoc]

end Layout

def Command.word : Command → String
  | .ifTest _ _ _ _ => CommandKeyword.ifTest.word
  | .generic name _ _ | .genericBlock name _ _ _ => name
  | c => c.clause?.elim "" fun r => r.1.word

/-- What a row can begin with. -/
inductive Opening where
  | command (c : Command)
  | closeBrace

def Opening.text : Opening → List Char
  | command c => c.word.toList
  | closeBrace => ['}']

mutual

/-- What begins a row behind the first row of a command at nesting depth `depth`. -/
def Command.openings (depth : Nat) : Command → List (Nat × Opening)
  | .ifTest _ body chain _ => body.openings depth ++ chain.openings depth
  | .genericBlock _ _ body _ => body.openings depth
  | _ => []

def commandsOpenings (depth : Nat) : List Command → List (Nat × Opening)
  | [] => []
  | c :: cs => (depth, .command c) :: c.openings depth ++ commandsOpenings depth cs

/-- Commands in braces are nested once more. Nothing stands in empty braces. -/
def Block.openings (depth : Nat) : Block → List (Nat × Opening)
  | .mk cs _ =>
    if cs.isEmpty then [] else commandsOpenings (depth + 1) cs ++ [(depth, .closeBrace)]

def Chain.openings (depth : Nat) : Chain → List (Nat × Opening)
  | .done => []
  | .elsif _ body chain _ => body.openings depth ++ chain.openings depth
  | .otherwise body _ => body.openings depth

end

/-- The commands and closing braces of a script in source order, with the depth of the blocks around
them. -/
def Script.openings (s : Script) : List (Nat × Opening) := commandsOpenings 0 s.commands

def Mark.literal? : Mark → Option String
  | token (.string value true) => some value
  | _ => none

/-- The values of the multi-line literals of a script in the order in which they are written. -/
def Script.literals (s : Script) : List String :=
  (Canonical.scriptMarks s.commands).filterMap Mark.literal?

/-- Rows behind a row `prev`. Each is begun by the next command or closing brace and has its depth.
All others belong to the next multi-line literal, behind the row that ends in `text:`: its value,
the dot, and what follows the literal. -/
inductive Begun : List Char → List TextRow → List (Nat × Opening) → List String → Prop where
  | done {prev : List Char} : Begun prev [] [] []
  | opening {prev body : List Char} {depth : Nat} {o : Opening} {rs : List TextRow}
    {os : List (Nat × Opening)} {vs : List String} : o.text <+: body → Begun body rs os vs →
    Begun prev (⟨depth, body⟩ :: rs) ((depth, o) :: os) vs
  | literal {prev behind : List Char} {value : String} {rs : List TextRow}
    {os : List (Nat × Opening)} {vs : List String} : "text:".toList <:+ prev →
    Begun behind rs os vs →
    Begun prev (⟨0, TextBlock.stuff value.toList⟩ :: ⟨0, ['.']⟩ :: ⟨0, behind⟩ :: rs) os
      (value :: vs)

section Openings

open Canonical

variable {ms ns : List Mark} {os ps : List (Nat × Opening)} {m : Mark}

def Continues (ms : List Mark) (os : List (Nat × Opening)) : Prop :=
  ∀ prev, Begun (prev ++ (marksRows ms).1) (marksRows ms).2 os (ms.filterMap Mark.literal?)

theorem Continues.nil : Continues [] [] := fun _ => .done

theorem Continues.text {cs : List Char} (hm : m.pieces = [.text cs]) (hl : m.literal? = none)
    (h : Continues ms os) : Continues (m :: ms) os := by
  intro prev
  rw [marksRows_text hm, List.filterMap_cons_none hl, ← List.append_assoc]
  exact h (prev ++ cs)

theorem Continues.token (t : Token) (h : Continues ms os) : Continues (.token t :: ms) os := by
  cases t with
  | tag | word | number | mark => exact .text rfl rfl h
  | endOfInput => exact h
  | string value multiline =>
    cases multiline with
    | false => exact .text rfl rfl h
    | true =>
      intro prev
      rw [marksRows_literal]
      exact .literal (List.suffix_append _ _) (h [])

theorem Continues.line {depth : Nat} {o : Opening} (hm : m.pieces = [.text o.text])
    (h : Continues (m :: ms) os) : Continues (.line depth :: m :: ms) ((depth, o) :: os) := by
  intro prev
  rw [marksRows_line]
  refine .opening ?_ (h [])
  rw [marksRows_text hm]
  exact List.prefix_append _ _

/-- Marks with their openings, wherever they stand. -/
def Laid (ms : List Mark) (os : List (Nat × Opening)) : Prop :=
  ∀ ns ps, Continues ns ps → Continues (ms ++ ns) (os ++ ps)

theorem Laid.append (h : Laid ms os) (k : Laid ns ps) : Laid (ms ++ ns) (os ++ ps) := by
  intro more rest hmore
  rw [List.append_assoc, List.append_assoc]
  exact h _ _ (k _ _ hmore)

theorem Laid.spaced (h : Laid ms os) : Laid (Canonical.spaced ms) os :=
  fun _ _ hmore => .text rfl rfl (h _ _ hmore)

theorem Laid.line {depth : Nat} {o : Opening} (hm : m.pieces = [.text o.text])
    (h : Laid (m :: ms) os) : Laid (.line depth :: m :: ms) ((depth, o) :: os) :=
  fun _ _ hmore => .line hm (h _ _ hmore)

namespace Mark

def isInline : Mark → Bool
  | line _ => false
  | _ => true

end Mark

namespace Canonical

def Inline (ms : List Mark) : Prop := ∀ m ∈ ms, m.isInline = true

theorem Inline.laid (h : Inline ms) : Laid ms [] := by
  intro ns ps hns
  induction ms with
  | nil => exact hns
  | cons m ms ih =>
    obtain ⟨hm, hms⟩ := List.forall_mem_cons.1 h
    cases m with
    | token t => exact .token t (ih hms)
    | space => exact .text rfl rfl (ih hms)
    | line depth => cases hm

end Canonical

end Openings

section Trees

open Canonical Mark Phrase

variable {ms ns : List Mark} {m : Mark}

namespace Canonical

@[simp] theorem inline_nil : Inline [] := nofun

@[simp] theorem inline_cons : Inline (m :: ms) ↔ m.isInline = true ∧ Inline ms :=
  List.forall_mem_cons

@[simp] theorem inline_append : Inline (ms ++ ns) ↔ Inline ms ∧ Inline ns :=
  List.forall_mem_append

@[simp] theorem isInline_space : Mark.space.isInline = true := rfl

@[simp] theorem isInline_word (name : String) : (Mark.word name).isInline = true := rfl

@[simp] theorem isInline_tag (name : String) : (Mark.tag name).isInline = true := rfl

@[simp] theorem isInline_punctuation (p : Punctuation) : (punctuation p).isInline = true := rfl

@[simp] theorem isInline_quoted (value : String) : (quoted value).isInline = true := rfl

@[simp] theorem isInline_stringMark (s : StringLit) : (stringMark s).isInline = true := rfl

@[simp] theorem isInline_numberMark (n : NumberLit) : (numberMark n).isInline = true := rfl

@[simp] theorem isInline_keyword (k : TestKeyword) : (keyword k).isInline = true := rfl

@[simp] theorem isInline_commandWord (k : CommandKeyword) : (commandWord k).isInline = true := rfl

@[simp] theorem inline_spaced : Inline (spaced ms) ↔ Inline ms := by simp [spaced]

@[simp] theorem inline_terminated : Inline (terminated ms) ↔ Inline ms := by simp [terminated]

theorem inline_commaSeparated {mss : List (List Mark)} (h : ∀ ms ∈ mss, Inline ms) :
    Inline (commaSeparated mss) := by
  induction mss with
  | nil => exact inline_nil
  | cons ms mss ih =>
    rw [List.forall_mem_cons] at h
    cases mss with
    | nil => exact h.1
    | cons ns mss => simpa [commaSeparated, h.1] using ih h.2

theorem inline_listMarks (h : Inline ms) : Inline (listMarks ms) := by
  unfold listMarks
  split
  · exact h
  · have hitems : Inline (commaSeparated (ms.map fun m => [m])) := by
      refine inline_commaSeparated fun ns hn => ?_
      obtain ⟨m, hm, rfl⟩ := List.mem_map.1 hn
      simpa using h m hm
    simpa using hitems

@[simp] theorem inline_stringListMarks (l : StringList) : Inline (stringListMarks l) := by
  refine inline_listMarks fun m hm => ?_
  obtain ⟨s, -, rfl⟩ := List.mem_map.1 hm
  rfl

@[simp] theorem inline_quotedList (names : List String) :
    Inline (listMarks (names.map quoted)) := by
  refine inline_listMarks fun m hm => ?_
  obtain ⟨name, -, rfl⟩ := List.mem_map.1 hm
  rfl

@[simp] theorem inline_tagIf (name : String) (b : Bool) : Inline (tagIf name b) := by
  cases b <;> simp [tagIf]

theorem inline_tagWith {α : Type} {marks : α → List Mark} (h : ∀ a, Inline (marks a))
    (name : String) (a : Option α) : Inline (tagWith name marks a) := by
  cases a <;> simp [tagWith, h]

@[simp] theorem inline_taggedString (name : String) (s : Option StringLit) :
    Inline (taggedString name s) := inline_tagWith (by simp) name s

@[simp] theorem inline_taggedStrings (name : String) (l : Option StringList) :
    Inline (taggedStrings name l) := inline_tagWith inline_stringListMarks name l

@[simp] theorem inline_taggedNumber (name : String) (n : Option NumberLit) :
    Inline (taggedNumber name n) := inline_tagWith (by simp) name n

@[simp] theorem inline_tagNamed {α : Type} (word : α → String) (a : Option α) :
    Inline (tagNamed word a) := by
  cases a <;> simp [tagNamed]

@[simp] theorem inline_optionMarks (o : MatchOptions) : Inline (optionMarks o) := by
  obtain ⟨m, _ | r, c⟩ := o <;> simp [optionMarks, relationalMarks]

@[simp] theorem inline_partMarks (p : Option AddressPart) : Inline (partMarks p) :=
  inline_tagNamed _ p

@[simp] theorem inline_transformMarks (t : Option BodyTransform) : Inline (transformMarks t) := by
  match t with
  | none | some .raw | some .text | some (.content _) => simp [transformMarks]

theorem inline_parenthesized {mss : List (List Mark)} (h : ∀ ms ∈ mss, Inline ms) :
    Inline (parenthesized mss) := by
  simpa [parenthesized] using inline_commaSeparated h

end Canonical

theorem inline_clause {t : Test} {k : TestKeyword} {c : Clause} (h : t.clause? = some (k, c)) :
    Inline (testMarks t) := by
  cases t with
  | negation | allOf | anyOf | generic => cases h
  | hasFlag t =>
    obtain ⟨options, _ | names, flags, l⟩ := t <;> simp [testMarks, hasFlagMarks]
  | _ =>
    simp [testMarks, addressMarks, headerMarks, envelopeMarks, sizeMarks, bodyMarks, dateMarks,
      currentDateMarks, stringTestMarks, duplicateMarks]

theorem inline_tests {ts : List Test} (h : ∀ t ∈ ts, Inline (testMarks t)) :
    Inline (parenthesized (testsMarks ts)) := by
  rw [testsMarks_eq_map]
  exact inline_parenthesized (List.forall_mem_map.2 h)

theorem inline_arguments {as : List Argument}
    (h : ∀ ts l, .tests ts l ∈ as → ∀ t ∈ ts, Inline (testMarks t)) :
    Inline (argumentsMarks as) := by
  induction as with
  | nil => exact inline_nil
  | cons a as ih =>
    have hmore := ih fun ts l hm => h ts l (List.mem_cons_of_mem a hm)
    cases a with
    | tests ts l =>
      simpa [argumentsMarks, argumentMarks, hmore] using inline_tests (h ts l List.mem_cons_self)
    | _ => simpa [argumentsMarks, argumentMarks] using hmore

theorem inline_test (t : Test) : Inline (testMarks t) := by
  refine TestCases.test (P := fun t => Inline (testMarks t)) ⟨?_, ?_, ?_, ?_, ?_⟩ t
  · exact inline_clause
  · intro t l ih
    simpa [testMarks] using ih
  · intro ts l ih
    simpa [testMarks] using inline_tests ih
  · intro ts l ih
    simpa [testMarks] using inline_tests ih
  · intro name as l ih
    simpa [testMarks] using inline_arguments ih

theorem inline_commandClause {c : Command} {k : CommandKeyword} {cl : Clause}
    (h : c.clause? = some (k, cl)) (depth : Nat) : Inline (commandMarks depth c) := by
  cases c with
  | ifTest | generic | genericBlock => cases h
  | flag c => obtain ⟨action, _ | name, flags, l⟩ := c <;> simp [commandMarks, flagMarks]
  | setVariable c =>
    have hmods (ms : List SetModifier) :
        Inline (ms.flatMap fun m => [.space, Mark.tag m.word]) := by
      induction ms with
      | nil => exact inline_nil
      | cons m ms ih => simpa using ih
    simp [commandMarks, setMarks, hmods]
  | notify c =>
    have himportance : Inline (tagWith "importance" (fun i => [quoted i.word]) c.importance) :=
      inline_tagWith (by simp) _ _
    simp [commandMarks, notifyMarks, himportance]
  | _ => simp [commandMarks, fileIntoMarks, vacationMarks]

theorem commandMarks_word (depth : Nat) (c : Command) :
    ∃ ms, commandMarks depth c = Mark.word c.word :: ms := by
  cases c with
  | flag c =>
    obtain ⟨action, name, flags, l⟩ := c
    cases action <;> exact ⟨_, rfl⟩
  | _ => exact ⟨_, rfl⟩

theorem laid_lines {depth : Nat} {cs : List Command}
    (h : ∀ c ∈ cs, Laid (commandMarks depth c) (c.openings depth)) :
    Laid (linesMarks depth cs) (commandsOpenings depth cs) := by
  induction cs with
  | nil => exact inline_nil.laid
  | cons c cs ih =>
    obtain ⟨hc, hcs⟩ := List.forall_mem_cons.1 h
    obtain ⟨ms, hms⟩ := commandMarks_word depth c
    rw [linesMarks, commandsOpenings, hms]
    rw [hms] at hc
    have hword : (Mark.word c.word).pieces = [.text (Opening.command c).text] := rfl
    exact (Laid.line hword hc).append (ih hcs)

theorem commandCases_laid : CommandCases
    (fun c => ∀ depth, Laid (commandMarks depth c) (c.openings depth))
    (fun b => ∀ depth, Laid (blockMarks depth b) (b.openings depth))
    (fun c => ∀ depth, Laid (chainMarks depth c) (c.openings depth)) where
  clause := by
    intro c k cl h depth
    have hnone : c.openings depth = [] := by
      cases c with
      | ifTest | generic | genericBlock => cases h
      | _ => rfl
    rw [hnone]
    exact (inline_commandClause h depth).laid
  ifTest := by
    intro t b ch l hb hch depth
    have htest : Inline (commandWord .ifTest :: spaced (testMarks t)) := by
      simpa using inline_test t
    exact (htest.laid.append (.spaced (hb depth))).append (hch depth)
  generic := by
    intro name as l depth
    have hmarks : Inline (commandMarks depth (.generic name as l)) := by
      simpa [commandMarks] using inline_arguments fun _ _ _ t _ => inline_test t
    exact hmarks.laid
  genericBlock := by
    intro name as b l hb depth
    have hmarks : Inline (Mark.word name :: argumentsMarks as) := by
      simpa using inline_arguments fun _ _ _ t _ => inline_test t
    exact hmarks.laid.append (.spaced (hb depth))
  block := by
    intro cs l ih depth
    cases cs with
    | nil =>
      have hmarks : Inline [punctuation .openBrace, punctuation .closeBrace] := by simp
      exact hmarks.laid
    | cons c cs =>
      have hopen : Inline [punctuation .openBrace] := by simp
      have hclose : Inline [punctuation .closeBrace] := by simp
      have hlines := laid_lines fun d hd => ih d hd (depth + 1)
      have hend : Laid [.line depth, punctuation .closeBrace] [(depth, .closeBrace)] :=
        .line rfl hclose.laid
      exact (hopen.laid.append hlines).append hend
  done _ := inline_nil.laid
  elsif := by
    intro t b ch l hb hch depth
    have htest : Inline (.space :: commandWord .elsif :: spaced (testMarks t)) := by
      simpa using inline_test t
    exact (htest.laid.append (.spaced (hb depth))).append (hch depth)
  otherwise := by
    intro b l hb depth
    have hword : Inline [.space, commandWord .elseBlock] := by simp
    exact hword.laid.append (.spaced (hb depth))

end Trees

namespace Script

open Canonical

/-- The first command of a script is written at its very beginning, where no line break is. -/
theorem renderChars_rows (l : Layout) (s : Script) : l.renderChars (scriptMarks s.commands)
    = List.intercalate l.newline.toList (s.rows.map l.renderRow) := by
  rw [rows, Layout.renderChars, Layout.renderPieces_rows]
  cases s.commands with
  | nil => rfl
  | cons c cs =>
    rw [linesMarks, List.cons_append, marksRows_line, Layout.intercalate_rows]
    rfl

theorem rows_begun (s : Script) : Begun [] s.rows s.openings s.literals := by
  have hlaid := laid_lines fun c (_ : c ∈ s.commands) => commandCases_laid.command c 0
  have hrows := hlaid [] [] .nil []
  rw [List.append_nil, List.append_nil, List.nil_append] at hrows
  rw [rows, openings, literals]
  cases hs : s.commands with
  | nil => exact .done
  | cons c cs =>
    rw [hs] at hrows
    exact hrows

/-- In every layout a script is written as the same rows, each indented by its depth. -/
theorem generate_rows (s : Script) : Begun [] s.rows s.openings s.literals ∧ ∀ l, s.generate l
    = String.ofList (List.intercalate l.newline.toList (s.rows.map l.renderRow)) := by
  refine ⟨s.rows_begun, fun l => ?_⟩
  rw [generate, Layout.render, renderChars_rows]

end Script

end MailSieve
