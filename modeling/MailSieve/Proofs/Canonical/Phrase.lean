import MailSieve.Proofs.Canonical.Kept
import MailSieve.Proofs.Phrase.Levels

/-! Canonical text is a phrase for what is kept of the tree.
The tree has to pass the checks of its nodes, its tags have to be able to stand together and its
lists of tests have to stand last. As many levels as the tree is deep are enough. -/

namespace MailSieve

open Phrase Canonical

variable {α β : Type}

theorem sequence_flatMap {G : List Token → β → Prop} {f : α → List Token} {g : α → β}
    {as : List α} (h : ∀ a ∈ as, G (f a) (g a)) : Sequence G (as.flatMap f) (as.map g) := by
  induction as with
  | nil => exact .nil
  | cons a as ih =>
    rw [List.forall_mem_cons] at h
    exact .cons h.1 (ih h.2)

theorem separated_commaSeparated {G : List Token → β → Prop} {f : α → List Mark} {g : α → β}
    {as : List α} (hne : as ≠ []) (h : ∀ a ∈ as, G (tokens (f a)) (g a)) :
    Separated G (tokens (commaSeparated (as.map f))) (as.map g) := by
  induction as with
  | nil => exact absurd rfl hne
  | cons a as ih =>
    rw [List.forall_mem_cons] at h
    cases as with
    | nil => exact .single h.1
    | cons b bs =>
      simp only [List.map_cons, commaSeparated, tokens_append, tokens_punctuation, tokens_space]
      exact .cons h.1 (ih (by simp) h.2)

theorem stringPhrase_token (s : StringLit) : StringPhrase [stringToken s] s.erase := .mk _ _

theorem numberPhrase_token (n : NumberLit) : NumberPhrase [numberToken n] n.erase.reduced := .mk _ _

theorem bracketPhrase_tokens {s t : StringLit} {ss : List StringLit} :
    BracketPhrase (tokens (listMarks ((s :: t :: ss).map stringMark)))
      ⟨(s :: t :: ss).map StringLit.erase, none⟩ := by
  have h := separated_commaSeparated (G := StringPhrase) (f := fun s => [stringMark s])
    (g := StringLit.erase) (List.cons_ne_nil s (t :: ss)) fun s _ => stringPhrase_token s
  simpa [listMarks, bracketed, List.map_map, Function.comp_def] using BracketPhrase.mk h

theorem listPhrase_marks {ss : List StringLit} (h : ss ≠ []) :
    ListPhrase (tokens (listMarks (ss.map stringMark))) ⟨ss.map StringLit.erase, none⟩ := by
  match ss with
  | [] => exact absurd rfl h
  | [s] => exact .single (stringPhrase_token s)
  | s :: t :: ss => exact .brackets bracketPhrase_tokens

theorem listPhrase_tokens {l : StringList} (h : l.Obeys .checked) :
    ListPhrase (listTokens l) l.erase := listPhrase_marks h.1

theorem settingPhrase_tokens {s : Setting} (h : s.Obeys .checked) :
    SettingPhrase s.tokens s.kept := by
  obtain ⟨name, value⟩ := s
  refine SettingPhrase.mk (s := ⟨name, value.kept⟩) ?_
  cases value with
  | none => exact .none
  | string s => exact .string (stringPhrase_token s)
  | strings l => exact .strings (listPhrase_tokens h)
  | number n => exact .number (numberPhrase_token n)
  | operator o => exact .operator o false
  | importance i => exact .importance i false

theorem positionalPhrase_tokens {p : Positional} (h : p.Obeys .checked) :
    PositionalPhrase p.tokens p.kept := by
  cases p with
  | string s => exact .string (stringPhrase_token s)
  | strings l => exact .strings (listPhrase_tokens h)
  | number n => exact .number (numberPhrase_token n)
  | texts values =>
    have hne : values ≠ [] := h
    have hm : values.map Mark.quoted = (values.map StringLit.quoted).map stringMark := by
      rw [List.map_map]
      rfl
    have hquoted : values.map StringLit.quoted ≠ [] := by simpa using hne
    have hp := PositionalPhrase.texts (listPhrase_marks hquoted)
    rw [← hm] at hp
    simpa [Positional.tokens, Positional.kept, Function.comp_def, StringLit.quoted,
      StringLit.erase] using hp

theorem arranges_kept (c : Clause) : c.kept.Arranges (c.settings.map Setting.kept) := by
  rw [Clause.Arranges]
  split
  · rfl
  · exact .refl _

theorem clausePhrase_tokens {c : Clause} (h : c.Obeys .checked) : ClausePhrase c.tokens c.kept :=
  .mk (arranges_kept c) (sequence_flatMap fun s hs => settingPhrase_tokens (h.settings s hs))
    (sequence_flatMap fun p hp => positionalPhrase_tokens (h.positionals p hp))

section Tests

variable {n : Nat}

theorem plainArgument_tokens {a : Argument} (h : a.Obeys .checked) (ht : Parse.isTests a = false) :
    PlainArgument (tokens (argumentMarks a)) a.kept := by
  cases a with
  | tag name l => exact .tag name
  | number n => exact .number (numberPhrase_token n)
  | string s => exact .string (stringPhrase_token s)
  | strings l =>
    match l, h with
    | ⟨[], _⟩, h => exact absurd rfl h.1
    | ⟨[s], _⟩, h => exact .string (stringPhrase_token s)
    | ⟨s :: t :: ss, _⟩, h => exact .strings bracketPhrase_tokens
  | tests => cases ht

theorem testsPhrase_tokens {ts : List Test} (hne : ts ≠ [])
    (h : ∀ t ∈ ts, TestPhrase n (tokens (testMarks t)) t.kept) :
    Separated (TestPhrase n) (tokens (commaSeparated (testsMarks ts))) (ts.map Test.kept) := by
  rw [testsMarks_eq_map]
  exact separated_commaSeparated hne h

theorem argumentsPhrase_tokens {as : List Argument} (hc : ArgumentsObey .checked as)
    (hr : TreeLaw.readable.arguments as)
    (ht : ∀ ts l, .tests ts l ∈ as → ∀ t ∈ ts, TestPhrase n (tokens (testMarks t)) t.kept) :
    ArgumentsPhrase (TestPhrase n) (tokens (argumentsMarks as)) (as.map Argument.kept) := by
  induction as with
  | nil => exact .nil
  | cons a as ih =>
    rw [tokens_argumentsMarks, List.flatMap_cons, ← tokens_argumentsMarks, List.map_cons]
    obtain ⟨hlast, hr⟩ := arguments_readable_cons.1 hr
    cases hta : Parse.isTests a with
    | false =>
      exact .cons (plainArgument_tokens hc.1 hta) (ih hc.2 hr fun ts l hm =>
        ht ts l (List.mem_cons_of_mem a hm))
    | true =>
      have has : as = [] := by
        cases as with
        | nil => rfl
        | cons b bs => cases hta.symm.trans (hlast (List.cons_ne_nil b bs))
      cases a with
      | tests ts l =>
        subst has
        rw [Argument.kept_tests, argumentMarks, tokens_parenthesized]
        simpa [argumentsMarks] using ArgumentsPhrase.tests
          (testsPhrase_tokens hc.1.1 (ht ts l List.mem_cons_self))
      | _ => cases hta

/-- The test is written as a phrase within its depth. -/
def WrittenWithin (t : Test) : Prop :=
  ∀ {n}, t.Obeys .checked → t.Obeys .readable → t.depth ≤ n →
    TestPhrase n (tokens (testMarks t)) t.kept

theorem phrase_of_members {ts : List Test} (h : ∀ t ∈ ts, WrittenWithin t)
    (hc : TestsObey .checked ts) (hr : TestsObey .readable ts) (hd : testsDepth ts ≤ n) :
    ∀ t ∈ ts, TestPhrase n (tokens (testMarks t)) t.kept := fun t ht =>
  h t ht (testsObey_iff.1 hc t ht) (testsObey_iff.1 hr t ht) (testsDepth_le.1 hd t ht)

theorem phrase_of_arguments {as : List Argument}
    (h : ∀ ts l, .tests ts l ∈ as → ∀ t ∈ ts, WrittenWithin t)
    (hc : ArgumentsObey .checked as) (hr : ArgumentsObey .readable as)
    (hd : argumentsDepth as ≤ n) :
    ∀ ts l, .tests ts l ∈ as → ∀ t ∈ ts, TestPhrase n (tokens (testMarks t)) t.kept := by
  induction as with
  | nil => simp
  | cons a as ih =>
    rw [argumentsDepth, Nat.max_le] at hd
    intro ts l hm
    obtain rfl | hm := List.mem_cons.1 hm
    · exact phrase_of_members (h ts l List.mem_cons_self) hc.1.2.1 hr.1.2.1 hd.1
    · exact ih (fun ts l hm => h ts l (List.mem_cons_of_mem a hm)) hc.2 hr.2 hd.2 ts l hm

theorem testPhrase_tokens (t : Test) : WrittenWithin t := by
  refine TestCases.test (P := WrittenWithin) ⟨?_, ?_, ?_, ?_, ?_⟩ t
  · intro t k c h n hc hr hd
    rw [Test.depth_clause h] at hd
    obtain ⟨n, rfl⟩ := Nat.exists_eq_succ_of_ne_zero (n := n) (by omega)
    obtain ⟨hk, hl⟩ := Test.kept_clause h
    rw [testMarks_clause h]
    exact .clause hk hl (Test.kept_readable h hr) (clausePhrase_tokens ((Test.obeys_iff h).1 hc).1)
  · intro t l ih n hc hr hd
    rw [Test.depth] at hd
    obtain ⟨n, rfl⟩ := Nat.exists_eq_succ_of_ne_zero (n := n) (by omega)
    exact .negation (ih hc.1 hr.1 (by omega))
  · intro ts l ih n hc hr hd
    rw [Test.depth] at hd
    obtain ⟨n, rfl⟩ := Nat.exists_eq_succ_of_ne_zero (n := n) (by omega)
    have hs := testsPhrase_tokens hc.1 (phrase_of_members ih hc.2.1 hr.2.1 (n := n) (by omega))
    rw [testMarks, Test.kept_allOf, keyword, tokens_word, tokens_space, tokens_parenthesized]
    exact .allOf hs
  · intro ts l ih n hc hr hd
    rw [Test.depth] at hd
    obtain ⟨n, rfl⟩ := Nat.exists_eq_succ_of_ne_zero (n := n) (by omega)
    have hs := testsPhrase_tokens hc.1 (phrase_of_members ih hc.2.1 hr.2.1 (n := n) (by omega))
    rw [testMarks, Test.kept_anyOf, keyword, tokens_word, tokens_space, tokens_parenthesized]
    exact .anyOf hs
  · intro name as l ih n hc hr hd
    rw [Test.depth] at hd
    obtain ⟨n, rfl⟩ := Nat.exists_eq_succ_of_ne_zero (n := n) (by omega)
    obtain ⟨hname, -, hca, -⟩ := hc
    obtain ⟨-, hlast, hra, -⟩ := hr
    rw [Test.kept_generic]
    exact .generic hname.2 (argumentsPhrase_tokens hca hlast
      (phrase_of_arguments ih hca hra (by omega)))

end Tests

section Commands

variable {n : Nat}

theorem sequence_linesMarks {G : List Token → Command → Prop} {depth : Nat} {cs : List Command}
    (h : ∀ c ∈ cs, G (tokens (commandMarks depth c)) c.kept) :
    Sequence G (tokens (linesMarks depth cs)) (cs.map Command.kept) := by
  induction cs with
  | nil => exact .nil
  | cons c cs ih =>
    rw [List.forall_mem_cons] at h
    rw [linesMarks, List.cons_append, tokens_line, tokens_append]
    exact .cons h.1 (ih h.2)

theorem tokens_blockMarks (depth : Nat) (cs : List Command) (l : Option Location) :
    tokens (blockMarks depth (.mk cs l)) = braced (tokens (linesMarks (depth + 1) cs)) := by
  cases cs <;> simp [blockMarks, linesMarks, braced]

theorem tokens_scriptMarks (cs : List Command) :
    tokens (scriptMarks cs) = tokens (linesMarks 0 cs) := by
  cases cs <;> simp [scriptMarks, linesMarks]

namespace Canonical

def CommandWritten (c : Command) : Prop :=
  ∀ {n depth}, c.Obeys .checked → c.Obeys .readable → c.depth ≤ n →
    CommandPhrase n (tokens (commandMarks depth c)) c.kept

def BlockWritten (b : Block) : Prop :=
  ∀ {n depth}, b.Obeys .checked → b.Obeys .readable → b.depth ≤ n →
    BlockPhrase n (tokens (blockMarks depth b)) b.kept

def ChainWritten (c : Chain) : Prop :=
  ∀ {n depth}, c.Obeys .checked → c.Obeys .readable → c.depth ≤ n →
    ChainPhrase n (tokens (chainMarks depth c)) c.kept

end Canonical

theorem argumentsPhrase_written {as : List Argument} (hc : ArgumentsObey .checked as)
    (hl : TreeLaw.readable.arguments as) (hr : ArgumentsObey .readable as)
    (hd : argumentsDepth as ≤ n) :
    ArgumentsPhrase (TestPhrase n) (tokens (argumentsMarks as)) (as.map Argument.kept) :=
  argumentsPhrase_tokens hc hl
    (phrase_of_arguments (fun _ _ _ t _ => testPhrase_tokens t) hc hr hd)

theorem sequence_commands {cs : List Command} (h : ∀ c ∈ cs, CommandWritten c) {depth : Nat}
    (hc : CommandsObey .checked cs) (hr : CommandsObey .readable cs) (hd : commandsDepth cs ≤ n) :
    Sequence (CommandPhrase n) (tokens (linesMarks depth cs)) (cs.map Command.kept) :=
  sequence_linesMarks fun c hm => h c hm (commandsObey_iff.1 hc c hm) (commandsObey_iff.1 hr c hm)
    (commandsDepth_le.1 hd c hm)

theorem commandCases_written : CommandCases CommandWritten BlockWritten ChainWritten where
  clause := by
    intro c k cl h n depth hc hr _
    obtain ⟨hk, hl⟩ := Command.kept_clause h
    rw [commandMarks_clause h]
    exact .clause hk hl (Command.kept_readable h hr)
      (clausePhrase_tokens ((Command.obeys_iff h).1 hc).1)
  ifTest := by
    intro t b ch l hb hch n depth hc hr hd
    obtain ⟨htc, hbc, hcc, -⟩ := hc
    obtain ⟨htr, hbr, hcr, -⟩ := hr
    simp only [Command.depth, Nat.max_le] at hd
    rw [commandMarks, tokens_append, tokens_append, tokens_spaced, commandWord, tokens_word,
      tokens_spaced, Command.kept_ifTest]
    exact .ifTest (testPhrase_tokens t htc htr hd.1) (hb hbc hbr hd.2.1) (hch hcc hcr hd.2.2)
  generic := by
    intro name as l n depth hc hr hd
    obtain ⟨hname, -, hca, -⟩ := hc
    obtain ⟨-, hlast, hra, -⟩ := hr
    rw [commandMarks, tokens_terminated, Command.kept_generic]
    exact .generic hname.2 (argumentsPhrase_written hca hlast hra hd)
  genericBlock := by
    intro name as b l hb n depth hc hr hd
    obtain ⟨hname, -, hca, hbc, -⟩ := hc
    obtain ⟨-, hlast, hra, hbr, -⟩ := hr
    rw [Command.depth, Nat.max_le] at hd
    rw [commandMarks, tokens_append, tokens_spaced, Command.kept_genericBlock]
    exact .genericBlock hname.2 (argumentsPhrase_written hca hlast hra hd.1) (hb hbc hbr hd.2)
  block := by
    intro cs l ih n depth hc hr hd
    rw [Block.depth] at hd
    obtain ⟨n, rfl⟩ := Nat.exists_eq_succ_of_ne_zero (n := n) (by omega)
    rw [tokens_blockMarks, Block.kept_mk]
    exact .mk (sequence_commands ih hc.1 hr.1 (by omega))
  done := by
    intro n depth _ _ _
    cases n with
    | zero => exact ⟨rfl, rfl⟩
    | succ n => exact .done
  elsif := by
    intro t b ch l hb hch n depth hc hr hd
    obtain ⟨htc, hbc, hcc, -⟩ := hc
    obtain ⟨htr, hbr, hcr, -⟩ := hr
    rw [Chain.depth] at hd
    obtain ⟨n, rfl⟩ := Nat.exists_eq_succ_of_ne_zero (n := n) (by omega)
    rw [Nat.succ_le_succ_iff, Nat.max_le, Nat.max_le] at hd
    rw [chainMarks, tokens_append, tokens_append, tokens_spaced, commandWord, tokens_space,
      tokens_word, tokens_spaced, Chain.kept_elsif]
    exact .elsif (testPhrase_tokens t htc htr hd.1) (hb hbc hbr hd.2.1) (hch hcc hcr hd.2.2)
  otherwise := by
    intro b l hb n depth hc hr hd
    rw [Chain.depth] at hd
    obtain ⟨n, rfl⟩ := Nat.exists_eq_succ_of_ne_zero (n := n) (by omega)
    exact .otherwise (hb hc.1 hr.1 (by omega))

theorem Script.kept_eq (s : Script) :
    s.erase.reduced.norm = ⟨s.commands.map Command.kept, none⟩ := by
  rw [← keptCommands_eq_map]
  rfl

/-- A script that is checked and readable is written as a phrase within its depth. -/
theorem scriptPhrase_tokens {s : Script} (hc : s.Obeys .checked) (hr : s.Obeys .readable)
    (hd : s.depth ≤ n) : ScriptPhrase n (tokens (scriptMarks s.commands)) s.erase.reduced.norm := by
  rw [Script.kept_eq, tokens_scriptMarks]
  exact .mk (sequence_commands (fun c _ => commandCases_written.command c) hc.1 hr.1 hd)

end Commands

end MailSieve
