import MailSieve.Proofs.Canonical.Together

/-! What is read of canonical text.
Whatever phrase begins the canonical tokens of a tree and ends where a phrase of its kind may end,
it is the tree's own: so the tree has no tags that exclude each other, its lists of tests stand
last, and it is nested within the levels of the phrase. -/

namespace MailSieve

open Phrase Canonical

variable {n : Nat} {us xs ys : List Token} {x y : Token}

theorem keywordForm_leaf {inner : List Token → Test → Prop} {t : Test} {k : TestKeyword}
    {c : Clause} (h : t.clause? = some (k, c)) : KeywordForm inner k = Leaf [] (TestClause k) := by
  cases t <;> cases h <;> rfl

theorem commandKeywordForm_leaf {T : List Token → Test → Prop} {B : List Token → Block → Prop}
    {C : List Token → Chain → Prop} {c : Command} {k : CommandKeyword} {cl : Clause}
    (h : c.clause? = some (k, cl)) : CommandKeywordForm T B C k = CommandLeaf k := by
  cases c with
  | flag c => obtain ⟨⟨⟩, _, _, _⟩ := c <;> cases h <;> rfl
  | _ => cases h <;> rfl

theorem testPhrase_named {u : Test} {name : String} {zs : List Token} (h : TestPhrase n us u)
    (he : us ++ x :: xs = .word name :: zs) :
    ∃ m vs, n = m + 1 ∧ us = .word name :: vs ∧ NamedForm (TestPhrase m) name vs u
      ∧ vs ++ x :: xs = zs := by
  cases n with
  | zero => exact h.elim
  | succ m =>
    obtain ⟨vs, rfl, -⟩ | ⟨name', vs, rfl, hn⟩ := testForm_iff.1 h
    · cases he
    · cases he
      exact ⟨m, vs, rfl, rfl, hn, rfl⟩

theorem commandPhrase_named {u : Command} {name : String} {zs : List Token}
    (h : CommandPhrase n us u) (he : us ++ x :: xs = .word name :: zs) :
    ∃ vs, us = .word name :: vs
      ∧ NamedCommandForm (TestPhrase n) (BlockPhrase n) (ChainPhrase n) name vs u
      ∧ vs ++ x :: xs = zs := by
  obtain ⟨name', vs, rfl, hn⟩ := commandForm_iff.1 h
  cases he
  exact ⟨vs, rfl, hn, rfl⟩

/-- What is read at the start of a test's tokens is the test. -/
structure Test.ReadBack (t : Test) : Prop where
  read : ∀ {n us u x y xs ys}, t.Obeys .checked → TestPhrase n us u → Closes x → Closes y →
    us ++ x :: xs = tokens (testMarks t) ++ y :: ys → t.Obeys .readable ∧ t.depth ≤ n

theorem Test.ReadBack.rest {t u : Test} (h : t.ReadBack) (hc : t.Obeys .checked)
    (hu : TestPhrase n us u) (hx : Closes x) (hy : Closes y)
    (he : us ++ x :: xs = tokens (testMarks t) ++ y :: ys) : x :: xs = y :: ys := by
  obtain ⟨hr, hd⟩ := h.read hc hu hx hy he
  have hus := (Reads.test (o := ⟨false, 0⟩) rfl n).unique hu (testPhrase_tokens t hc hr hd) hx hy he
  rw [hus.2] at he
  exact List.append_cancel_left he

section Tests

theorem separated_readBack {ts tests : List Test} (hne : ts ≠ []) (hb : ∀ t ∈ ts, t.ReadBack)
    (hc : TestsObey .checked ts) (hs : Separated (TestPhrase n) us tests)
    (he : us ++ .mark .closeParen :: xs
      = tokens (commaSeparated (testsMarks ts)) ++ .mark .closeParen :: ys) :
    TestsObey .readable ts ∧ testsDepth ts ≤ n := by
  rw [testsMarks_eq_map] at he
  induction ts generalizing us tests with
  | nil => exact absurd rfl hne
  | cons t ts ih =>
    rw [List.forall_mem_cons] at hb
    have hclose : Closes (.mark .closeParen) := rfl
    have hcomma : Closes (.mark .comma) := rfl
    cases ts with
    | nil =>
      have ht : t.Obeys .readable ∧ t.depth ≤ n := by
        cases hs with
        | single hu => exact hb.1.read hc.1 hu hclose hclose he
        | cons hu _ =>
          rw [List.append_assoc] at he
          exact hb.1.read hc.1 hu hcomma hclose he
      exact ⟨⟨ht.1, trivial⟩, by rw [testsDepth, testsDepth]; omega⟩
    | cons t' ts =>
      simp only [List.map_cons, commaSeparated, tokens_append, tokens_punctuation, tokens_space,
        List.append_assoc, List.cons_append] at he ih
      cases hs with
      | single hu => cases hb.1.rest hc.1 hu hclose hcomma he
      | cons hu hs =>
        rw [List.append_assoc] at he
        obtain ⟨hr, hd⟩ := hb.1.read hc.1 hu hcomma hcomma he
        have hrest := hb.1.rest hc.1 hu hcomma hcomma he
        obtain ⟨hrs, hds⟩ := ih (by simp) hb.2 hc.2 hs (List.cons.inj hrest).2
        exact ⟨⟨hr, hrs⟩, by rw [testsDepth]; omega⟩

theorem parenthesized_readBack {ts tests : List Test} (hne : ts ≠ []) (hb : ∀ t ∈ ts, t.ReadBack)
    (hc : TestsObey .checked ts) (hs : Separated (TestPhrase n) us tests) (hx : xs ≠ [])
    (hy : ys ≠ [])
    (he : Phrase.parenthesized us ++ xs = tokens (parenthesized (testsMarks ts)) ++ ys) :
    (TestsObey .readable ts ∧ testsDepth ts ≤ n) ∧ xs = ys := by
  rw [tokens_parenthesized] at he
  have hin := he
  simp only [Phrase.parenthesized, List.cons_append, List.append_assoc, List.cons.injEq, true_and,
    List.nil_append] at hin
  obtain ⟨hr, hd⟩ := separated_readBack hne hb hc hs hin
  have hts := testsPhrase_tokens (n := n) hne fun t ht => testPhrase_tokens t
    (testsObey_iff.1 hc t ht) (testsObey_iff.1 hr t ht) (testsDepth_le.1 hd t ht)
  have hu := (Reads.testList (Reads.test (o := ⟨false, 0⟩) rfl n)).unique_open ⟨us, rfl, hs⟩
    ⟨_, rfl, hts⟩ (fun _ => trivial) (fun _ => trivial) hx hy he
  rw [hu.2] at he
  exact ⟨⟨hr, hd⟩, List.append_cancel_left he⟩

theorem argumentMarks_starts (a : Argument) :
    ∃ tok ts, tokens (argumentMarks a) = tok :: ts ∧ startsArgument tok = true := by
  cases a with
  | tag name l => exact ⟨_, _, rfl, rfl⟩
  | number n => exact ⟨_, _, rfl, rfl⟩
  | string s => exact ⟨_, _, rfl, rfl⟩
  | strings l =>
    match l with
    | ⟨[], _⟩ => exact ⟨_, _, rfl, rfl⟩
    | ⟨[s], _⟩ => exact ⟨_, _, rfl, rfl⟩
    | ⟨s :: t :: ss, _⟩ => exact ⟨_, _, rfl, rfl⟩
  | tests ts l => exact ⟨_, _, rfl, rfl⟩

theorem arguments_nil_of_closes {as : List Argument} (hx : Closes x)
    (he : x :: xs = tokens (argumentsMarks as) ++ y :: ys) : as = [] := by
  cases as with
  | nil => rfl
  | cons a as =>
    obtain ⟨tok, ts, ha, hs⟩ := argumentMarks_starts a
    rw [tokens_argumentsMarks, List.flatMap_cons, ha] at he
    obtain ⟨rfl, -⟩ := List.cons.inj he
    cases hx.symm.trans hs

theorem plainArgument_readable {a : Argument} (h : Parse.isTests a = false) :
    a.Obeys .readable ∧ a.depth = 0 := by
  cases a with
  | tests => cases h
  | tag => exact ⟨⟨trivial, trivial⟩, rfl⟩
  | number | string | strings => exact ⟨by simp [Argument.Obeys], rfl⟩

theorem plainArgument_readBack {a : Argument} {bs : List Argument} {zs : List Token}
    (hc : a.Obeys .checked) (ha : Parse.isTests a = false)
    (hs : ArgumentsPhrase (TestPhrase n) us bs) (hx : Closes x) (hz : zs ≠ [])
    (he : us ++ x :: xs = tokens (argumentMarks a) ++ zs) :
    ∃ vs cs, ArgumentsPhrase (TestPhrase n) vs cs ∧ vs ++ x :: xs = zs := by
  have hread := Reads.argument (o := ⟨false, 0⟩) rfl (Reads.test rfl n) testPhrase_ne_nil
  have hopen {b : Argument} (hb : Parse.isTests b = false) (t : Token) :
      ArgumentCloses (some b) t := by
    intro h
    cases hb.symm.trans (h b rfl)
  have hp := plainArgument_tokens hc ha
  have hpa : ArgumentPhrase (TestPhrase n) (tokens (argumentMarks a)) (some a.kept) := .inl hp
  obtain ⟨z, zs, rfl⟩ := List.exists_cons_of_ne_nil hz
  cases argumentsPhrase_iff.2 hs with
  | stop h => cases (hread.unique h hpa (fun _ => hx) (hopen hp.not_tests z) he).1
  | @last _ b h hl =>
    obtain ⟨hu, -⟩ := hread.unique h hpa (fun _ => hx) (hopen hp.not_tests z) he
    cases hu
    cases hp.not_tests.symm.trans hl
  | @more us vs b bs h hl hbs =>
    rw [List.append_assoc] at he
    have hu := hread.unique_open h hpa (hopen hl) (hopen hp.not_tests) (by simp) (by simp) he
    rw [hu.2] at he
    exact ⟨vs, bs, argumentsPhrase_iff.1 hbs, List.append_cancel_left he⟩

theorem testsArgument_readBack {ts : List Test} {l : Option Location} {as bs : List Argument}
    (hb : ∀ t ∈ ts, t.ReadBack) (hc : (Argument.tests ts l).Obeys .checked)
    (hs : ArgumentsPhrase (TestPhrase n) us bs) (hx : Closes x)
    (he : us ++ x :: xs
      = tokens (argumentMarks (.tests ts l)) ++ (tokens (argumentsMarks as) ++ y :: ys)) :
    as = [] ∧ TestsObey .readable ts ∧ testsDepth ts ≤ n := by
  rw [argumentMarks] at he
  have hopen := he
  rw [tokens_parenthesized] at hopen
  cases hs with
  | nil =>
    cases hopen
    cases hx
  | cons ha _ => obtain _ | ⟨⟨⟩⟩ | ⟨⟨⟩⟩ | ⟨⟨⟩⟩ := ha <;> cases hopen
  | test => cases hopen
  | tests hs =>
    obtain ⟨hr, hrest⟩ := parenthesized_readBack hc.1 hb hc.2.1 hs (by simp) (by simp) he
    exact ⟨arguments_nil_of_closes hx hrest, hr⟩

theorem arguments_readBack {as bs : List Argument}
    (hb : ∀ ts l, .tests ts l ∈ as → ∀ t ∈ ts, t.ReadBack) (hc : ArgumentsObey .checked as)
    (hs : ArgumentsPhrase (TestPhrase n) us bs) (hx : Closes x)
    (he : us ++ x :: xs = tokens (argumentsMarks as) ++ y :: ys) :
    TreeLaw.readable.arguments as ∧ ArgumentsObey .readable as ∧ argumentsDepth as ≤ n := by
  induction as generalizing us bs with
  | nil => exact ⟨arguments_readable_nil, trivial, Nat.zero_le n⟩
  | cons a as ih =>
    rw [tokens_argumentsMarks, List.flatMap_cons, ← tokens_argumentsMarks, List.append_assoc] at he
    cases ha : Parse.isTests a with
    | false =>
      obtain ⟨vs, cs, hcs, hrest⟩ := plainArgument_readBack hc.1 ha hs hx (by simp) he
      obtain ⟨hlast, hr, hd⟩ :=
        ih (fun ts l hm => hb ts l (List.mem_cons_of_mem a hm)) hc.2 hcs hrest
      obtain ⟨har, had⟩ := plainArgument_readable ha
      refine ⟨arguments_readable_cons.2 ⟨fun _ => ha, hlast⟩, ⟨har, hr⟩, ?_⟩
      rw [argumentsDepth, had]
      omega
    | true =>
      cases a with
      | tests ts l =>
        have hts := hb ts l List.mem_cons_self
        obtain ⟨rfl, hr, hd⟩ := testsArgument_readBack hts hc.1 hs hx he
        refine ⟨arguments_readable_cons.2 ⟨absurd rfl, arguments_readable_nil⟩,
          ⟨⟨trivial, hr, trivial⟩, trivial⟩, ?_⟩
        rw [argumentsDepth, argumentsDepth, Argument.depth]
        omega
      | _ => cases ha

theorem test_readBack (t : Test) : t.ReadBack := by
  refine TestCases.test ⟨?_, ?_, ?_, ?_, ?_⟩ t
  · intro t k c h
    refine ⟨fun {n us u x y xs ys} hc hu hx hy he => ?_⟩
    rw [testMarks_clause h] at he
    obtain ⟨n, vs, rfl, rfl, hn, he⟩ := testPhrase_named hu he
    rw [NamedForm, TestKeyword.ofWord?_word] at hn
    simp only [keywordForm_leaf h] at hn
    obtain ⟨us, d, rfl, hd, hud, -, hur⟩ := hn
    rw [List.append_nil] at he
    exact ⟨Test.readable_of_clausePhrase h hud hur hc hd hx.not_tag hy.not_tag he,
      by rw [Test.depth_clause h]; omega⟩
  · intro t l ih
    refine ⟨fun {n us u x y xs ys} hc hu hx hy he => ?_⟩
    rw [testMarks, keyword, tokens_word, tokens_space] at he
    obtain ⟨n, vs, rfl, rfl, ⟨v, hv, rfl⟩, he⟩ := testPhrase_named hu he
    obtain ⟨hr, hd⟩ := ih.read hc.1 hv hx hy he
    exact ⟨⟨hr, trivial⟩, Nat.succ_le_succ hd⟩
  · intro ts l ih
    refine ⟨fun {n us u x y xs ys} hc hu hx hy he => ?_⟩
    obtain ⟨n, vs, rfl, rfl, ⟨ws, tests, rfl, hs, rfl⟩, he⟩ := testPhrase_named hu he
    obtain ⟨⟨hr, hd⟩, -⟩ := parenthesized_readBack hc.1 ih hc.2.1 hs (by simp) (by simp) he
    exact ⟨⟨trivial, hr, trivial⟩, Nat.succ_le_succ hd⟩
  · intro ts l ih
    refine ⟨fun {n us u x y xs ys} hc hu hx hy he => ?_⟩
    obtain ⟨n, vs, rfl, rfl, ⟨ws, tests, rfl, hs, rfl⟩, he⟩ := testPhrase_named hu he
    obtain ⟨⟨hr, hd⟩, -⟩ := parenthesized_readBack hc.1 ih hc.2.1 hs (by simp) (by simp) he
    exact ⟨⟨trivial, hr, trivial⟩, Nat.succ_le_succ hd⟩
  · intro name as l ih
    refine ⟨fun {n us u x y xs ys} hc hu hx hy he => ?_⟩
    obtain ⟨hname, -, hca, -⟩ := hc
    obtain ⟨n, vs, rfl, rfl, hn, he⟩ := testPhrase_named hu he
    rw [NamedForm, hname.2] at hn
    obtain ⟨bs, hbs, rfl⟩ := hn
    obtain ⟨hlast, hr, hd⟩ := arguments_readBack ih hca hbs hx he
    exact ⟨⟨trivial, hlast, hr, trivial⟩, Nat.succ_le_succ hd⟩

end Tests

section Commands

theorem arguments_rest {as bs : List Argument} (hc : ArgumentsObey .checked as)
    (hs : ArgumentsPhrase (TestPhrase n) us bs) (hx : Closes x) (hy : Closes y)
    (he : us ++ x :: xs = tokens (argumentsMarks as) ++ y :: ys) :
    (TreeLaw.readable.arguments as ∧ ArgumentsObey .readable as ∧ argumentsDepth as ≤ n)
      ∧ x :: xs = y :: ys := by
  obtain ⟨hlast, hr, hd⟩ := arguments_readBack (fun _ _ _ t _ => test_readBack t) hc hs hx he
  have hread := Reads.arguments (o := ⟨false, 0⟩) rfl (Reads.test rfl n) testPhrase_ne_nil
  have hu := hread.unique hs (argumentsPhrase_written hc hlast hr hd) hx hy he
  rw [hu.2] at he
  exact ⟨⟨hlast, hr, hd⟩, List.append_cancel_left he⟩

/-- What is read at the start of a command's tokens is the command, wherever it stands. -/
structure Command.ReadBack (c : Command) : Prop where
  read : ∀ {n depth us u x y xs ys}, c.Obeys .checked → CommandPhrase n us u → NoLink x → NoLink y →
    us ++ x :: xs = tokens (commandMarks depth c) ++ y :: ys → c.Obeys .readable ∧ c.depth ≤ n

structure Block.ReadBack (b : Block) : Prop where
  read : ∀ {n depth us u xs ys}, b.Obeys .checked → BlockPhrase n us u → xs ≠ [] → ys ≠ [] →
    us ++ xs = tokens (blockMarks depth b) ++ ys → b.Obeys .readable ∧ b.depth ≤ n

structure Chain.ReadBack (c : Chain) : Prop where
  read : ∀ {n depth us u x y xs ys}, c.Obeys .checked → ChainPhrase n us u → NoLink x → NoLink y →
    us ++ x :: xs = tokens (chainMarks depth c) ++ y :: ys → c.Obeys .readable ∧ c.depth ≤ n

variable {depth : Nat}

theorem Command.ReadBack.rest {c u : Command} (h : c.ReadBack) (hc : c.Obeys .checked)
    (hu : CommandPhrase n us u) (hx : NoLink x) (hy : NoLink y)
    (he : us ++ x :: xs = tokens (commandMarks depth c) ++ y :: ys) :
    (c.Obeys .readable ∧ c.depth ≤ n) ∧ x :: xs = y :: ys := by
  obtain ⟨hr, hd⟩ := h.read hc hu hx hy he
  have hus := (Reads.command (o := ⟨false, 0⟩) rfl n).unique hu
    (commandCases_written.command c hc hr hd) hx hy he
  rw [hus.2] at he
  exact ⟨⟨hr, hd⟩, List.append_cancel_left he⟩

theorem Block.ReadBack.rest {b u : Block} (h : b.ReadBack) (hc : b.Obeys .checked)
    (hu : BlockPhrase n us u) (hx : xs ≠ []) (hy : ys ≠ [])
    (he : us ++ xs = tokens (blockMarks depth b) ++ ys) :
    (b.Obeys .readable ∧ b.depth ≤ n) ∧ xs = ys := by
  obtain ⟨hr, hd⟩ := h.read hc hu hx hy he
  have hus := (Reads.block_chain (o := ⟨false, 0⟩) rfl n).1.unique_open hu
    (commandCases_written.body b hc hr hd) (fun _ => trivial) (fun _ => trivial)
    hx hy he
  rw [hus.2] at he
  exact ⟨⟨hr, hd⟩, List.append_cancel_left he⟩

theorem blockMarks_braced (depth : Nat) (b : Block) :
    ∃ ts, tokens (blockMarks depth b) = braced ts := by
  cases b
  exact ⟨_, tokens_blockMarks _ _ _⟩

theorem chainPhrase_elsif {u : Chain} {zs : List Token} (h : ChainPhrase n us u) (hx : NoLink x)
    (he : us ++ x :: xs = .word "elsif" :: zs) :
    ∃ m ts bs cs t b c, n = m + 1 ∧ TestPhrase m ts t ∧ BlockPhrase m bs b ∧ ChainPhrase m cs c
      ∧ ts ++ (bs ++ (cs ++ x :: xs)) = zs := by
  cases n with
  | zero =>
    obtain ⟨rfl, -⟩ := h
    exact absurd (List.cons.inj he).1 hx.1
  | succ m =>
    obtain _ | ⟨ht, hb, hc⟩ | _ := h
    · exact absurd (List.cons.inj he).1 hx.1
    · simp only [List.cons_append, List.append_assoc, List.cons.injEq, true_and] at he
      exact ⟨m, _, _, _, _, _, _, rfl, ht, hb, hc, he⟩
    · exact absurd (List.cons.inj he).1 (by decide)

theorem chainPhrase_else {u : Chain} {zs : List Token} (h : ChainPhrase n us u) (hx : NoLink x)
    (he : us ++ x :: xs = .word "else" :: zs) :
    ∃ m bs b, n = m + 1 ∧ BlockPhrase m bs b ∧ bs ++ x :: xs = zs := by
  cases n with
  | zero =>
    obtain ⟨rfl, -⟩ := h
    exact absurd (List.cons.inj he).1 hx.2
  | succ m =>
    obtain _ | _ | hb := h
    · exact absurd (List.cons.inj he).1 hx.2
    · exact absurd (List.cons.inj he).1 (by decide)
    · exact ⟨m, _, _, rfl, hb, (List.cons.inj he).2⟩

theorem link_readBack {t u : Test} {b v : Block} {c w : Chain} (hb : b.ReadBack) (hch : c.ReadBack)
    (htc : t.Obeys .checked) (hbc : b.Obeys .checked) (hcc : c.Obeys .checked)
    {ts bs cs : List Token} (ht : TestPhrase n ts u) (hv : BlockPhrase n bs v)
    (hw : ChainPhrase n cs w) (hx : NoLink x) (hy : NoLink y)
    (he : ts ++ (bs ++ (cs ++ x :: xs)) = tokens (testMarks t)
      ++ (tokens (blockMarks depth b) ++ (tokens (chainMarks depth c) ++ y :: ys))) :
    (t.Obeys .readable ∧ t.depth ≤ n) ∧ (b.Obeys .readable ∧ b.depth ≤ n)
      ∧ c.Obeys .readable ∧ c.depth ≤ n := by
  have hbrace : Closes (.mark .openBrace) := rfl
  obtain ⟨bs', rfl⟩ := Reads.blockPhrase_braced hv
  obtain ⟨cs', hcs⟩ := blockMarks_braced depth b
  rw [hcs] at he
  have htr := (test_readBack t).read htc ht hbrace hbrace he
  have hrest : braced bs' ++ (cs ++ x :: xs)
      = tokens (blockMarks depth b) ++ (tokens (chainMarks depth c) ++ y :: ys) := by
    rw [hcs]
    exact (test_readBack t).rest htc ht hbrace hbrace he
  obtain ⟨hbr, hrest⟩ := hb.rest hbc hv (by simp) (by simp) hrest
  exact ⟨htr, hbr, hch.read hcc hw hx hy hrest⟩

theorem commandMarks_starts (depth : Nat) {c : Command} (hc : c.Obeys .checked) :
    ∃ name ts, tokens (commandMarks depth c) = .word name :: ts ∧ NoLink (.word name) := by
  have named {name : String} (h : CommandKeyword.ofWord? name = none) : NoLink (.word name) := by
    constructor <;> rintro ⟨⟩ <;> cases h
  have flag (a : FlagAction) : NoLink (.word a.word) := by
    cases a <;> exact ⟨by decide, by decide⟩
  cases c with
  | generic name => exact ⟨name, _, rfl, named hc.1.2⟩
  | genericBlock name => exact ⟨name, _, rfl, named hc.1.2⟩
  | flag c => exact ⟨_, _, rfl, flag c.action⟩
  | _ => exact ⟨_, _, rfl, by decide, by decide⟩

def EndsCommands (t : Token) : Prop := ∀ name, t ≠ .word name

theorem EndsCommands.noLink (h : EndsCommands x) : NoLink x := ⟨h _, h _⟩

theorem sequence_readBack {cs ds : List Command} (hb : ∀ c ∈ cs, c.ReadBack)
    (hc : CommandsObey .checked cs) (hs : Sequence (CommandPhrase n) us ds) (hx : EndsCommands x)
    (hy : EndsCommands y) (he : us ++ x :: xs = tokens (linesMarks depth cs) ++ y :: ys) :
    CommandsObey .readable cs ∧ commandsDepth cs ≤ n := by
  induction cs generalizing us ds with
  | nil => exact ⟨trivial, Nat.zero_le n⟩
  | cons c cs ih =>
    rw [List.forall_mem_cons] at hb
    rw [linesMarks, List.cons_append, tokens_line, tokens_append, List.append_assoc] at he
    cases hs with
    | nil =>
      obtain ⟨name, ts, hname, -⟩ := commandMarks_starts depth hc.1
      rw [hname] at he
      exact absurd (List.cons.inj he).1 (hx name)
    | @cons us vs d ds hd hds =>
      obtain ⟨z, zs, hz, hzl⟩ : ∃ z zs, vs ++ x :: xs = z :: zs ∧ NoLink z := by
        cases hds with
        | nil => exact ⟨x, xs, rfl, hx.noLink⟩
        | cons hd _ =>
          obtain ⟨name, ts, rfl, hn⟩ := commandForm_starts hd
          exact ⟨_, _, rfl, hn⟩
      obtain ⟨w, ws, hw, hwl⟩ :
          ∃ w ws, tokens (linesMarks depth cs) ++ y :: ys = w :: ws ∧ NoLink w := by
        cases cs with
        | nil => exact ⟨y, ys, rfl, hy.noLink⟩
        | cons c' cs =>
          obtain ⟨name, ts, hname, hn⟩ := commandMarks_starts depth hc.2.1
          rw [linesMarks, List.cons_append, tokens_line, tokens_append, hname]
          exact ⟨_, _, rfl, hn⟩
      rw [List.append_assoc, hz, hw] at he
      obtain ⟨⟨hr, hcd⟩, hrest⟩ := hb.1.rest hc.1 hd hzl hwl he
      rw [← hz, ← hw] at hrest
      obtain ⟨hrs, hds⟩ := ih hb.2 hc.2 hds hrest
      exact ⟨⟨hr, hrs⟩, Nat.max_le.2 ⟨hcd, hds⟩⟩

theorem genericEnd_closes {name : String} {as : List Argument} {c : Command}
    (h : GenericEnd (BlockPhrase n) name as us c) : ∃ z zs, us = z :: zs ∧ Closes z := by
  obtain ⟨b, hb, -⟩ | ⟨rfl, -⟩ := h
  · obtain ⟨vs, rfl⟩ := Reads.blockPhrase_braced hb
    exact ⟨_, _, rfl, rfl⟩
  · exact ⟨_, _, rfl, rfl⟩

theorem genericArguments_readBack {name : String} {as : List Argument} {u : Command}
    (hname : CommandKeyword.ofWord? name = none) (hc : ArgumentsObey .checked as)
    (h : NamedCommandForm (TestPhrase n) (BlockPhrase n) (ChainPhrase n) name us u)
    (hy : Closes y) (he : us ++ x :: xs = tokens (argumentsMarks as) ++ y :: ys) :
    (TreeLaw.readable.arguments as ∧ ArgumentsObey .readable as ∧ argumentsDepth as ≤ n)
      ∧ ∃ vs bs, GenericEnd (BlockPhrase n) name bs vs u ∧ vs ++ x :: xs = y :: ys := by
  rw [NamedCommandForm, hname] at h
  obtain ⟨us, vs, bs, rfl, hbs, hend⟩ := h
  obtain ⟨z, zs, rfl, hz⟩ := genericEnd_closes hend
  rw [List.append_assoc] at he
  obtain ⟨hr, hrest⟩ := arguments_rest hc hbs hz hy he
  exact ⟨hr, z :: zs, bs, hend, hrest⟩

theorem commandCases_readBack :
    CommandCases Command.ReadBack Block.ReadBack Chain.ReadBack where
  clause := by
    intro c k cl h
    refine ⟨fun {n depth us u x y xs ys} hc hu hx hy he => ?_⟩
    rw [commandMarks_clause h] at he
    obtain ⟨vs, rfl, hn, he⟩ := commandPhrase_named hu he
    rw [NamedCommandForm, CommandKeyword.ofWord?_word] at hn
    simp only [commandKeywordForm_leaf h] at hn
    obtain ⟨us, d, rfl, hd, hud, -, hur⟩ := hn
    rw [List.append_assoc] at he
    exact ⟨Command.readable_of_clausePhrase h hud hur hc hd rfl rfl
      (he.trans (List.append_assoc _ _ _)), by rw [Command.depth_clause h]; omega⟩
  ifTest := by
    intro t b ch l hb hch
    refine ⟨fun {n depth us u x y xs ys} hc hu hx hy he => ?_⟩
    obtain ⟨htc, hbc, hcc, -⟩ := hc
    rw [commandMarks, tokens_append, tokens_append, tokens_spaced, commandWord, tokens_word,
      tokens_spaced] at he
    obtain ⟨vs, rfl, ⟨ts, bs, cs, t', b', c', rfl, ht, hv, hw, rfl⟩, he⟩ :=
      commandPhrase_named hu he
    obtain ⟨ht, hb, hc⟩ := link_readBack hb hch htc hbc hcc ht hv hw hx hy (by simpa using he)
    exact ⟨⟨ht.1, hb.1, hc.1, trivial⟩, Nat.max_le.2 ⟨ht.2, Nat.max_le.2 ⟨hb.2, hc.2⟩⟩⟩
  generic := by
    intro name as l
    refine ⟨fun {n depth us u x y xs ys} hc hu hx hy he => ?_⟩
    obtain ⟨hname, -, hca, -⟩ := hc
    rw [commandMarks, tokens_terminated] at he
    obtain ⟨vs, rfl, hn, he⟩ := commandPhrase_named hu he
    have hsemicolon : Closes (.mark .semicolon) := rfl
    obtain ⟨⟨hlast, hr, hd⟩, -⟩ := genericArguments_readBack hname.2 hca hn hsemicolon
      (he.trans (List.append_assoc _ _ _))
    exact ⟨⟨trivial, hlast, hr, trivial⟩, hd⟩
  genericBlock := by
    intro name as b l hb
    refine ⟨fun {n depth us u x y xs ys} hc hu hx hy he => ?_⟩
    obtain ⟨hname, -, hca, hbc, -⟩ := hc
    rw [commandMarks, tokens_append, tokens_spaced] at he
    obtain ⟨vs, rfl, hn, he⟩ := commandPhrase_named hu he
    obtain ⟨cs, hcs⟩ := blockMarks_braced depth b
    have hargs := he.trans (List.append_assoc _ _ _)
    rw [hcs] at hargs
    have hbrace : Closes (.mark .openBrace) := rfl
    obtain ⟨⟨hlast, hr, hd⟩, ws, bs, hend, hrest⟩ :=
      genericArguments_readBack hname.2 hca hn hbrace hargs
    obtain ⟨b', hb', -⟩ | ⟨rfl, -⟩ := hend
    · have hblock : ws ++ x :: xs = tokens (blockMarks depth b) ++ y :: ys := by
        rw [hcs]
        exact hrest
      obtain ⟨hbr, hbd⟩ := hb.read hbc hb' (by simp) (by simp) hblock
      exact ⟨⟨trivial, hlast, hr, hbr, trivial⟩, Nat.max_le.2 ⟨hd, hbd⟩⟩
    · cases hrest
  block := by
    intro cs l ih
    refine ⟨fun {n depth us u xs ys} hc hu hx hy he => ?_⟩
    rw [tokens_blockMarks] at he
    cases n with
    | zero => exact hu.elim
    | succ n =>
      obtain ⟨hs⟩ := hu
      simp only [braced, List.cons_append, List.append_assoc, List.cons.injEq, true_and,
        List.nil_append] at he
      obtain ⟨hr, hd⟩ := sequence_readBack ih hc.1 hs (fun _ => by simp) (fun _ => by simp) he
      exact ⟨⟨hr, trivial⟩, Nat.succ_le_succ hd⟩
  done := ⟨fun _ _ _ _ _ => ⟨trivial, Nat.zero_le _⟩⟩
  elsif := by
    intro t b ch l hb hch
    refine ⟨fun {n depth us u x y xs ys} hc hu hx hy he => ?_⟩
    obtain ⟨htc, hbc, hcc, -⟩ := hc
    rw [chainMarks, tokens_append, tokens_append, tokens_spaced, commandWord, tokens_space,
      tokens_word, tokens_spaced] at he
    simp only [List.cons_append, List.append_assoc] at he
    obtain ⟨m, ts, bs, cs, t', b', c', rfl, ht, hv, hw, he⟩ := chainPhrase_elsif hu hx he
    obtain ⟨ht, hb, hc⟩ := link_readBack hb hch htc hbc hcc ht hv hw hx hy he
    refine ⟨⟨ht.1, hb.1, hc.1, trivial⟩, Nat.succ_le_succ ?_⟩
    exact Nat.max_le.2 ⟨ht.2, Nat.max_le.2 ⟨hb.2, hc.2⟩⟩
  otherwise := by
    intro b l hb
    refine ⟨fun {n depth us u x y xs ys} hc hu hx hy he => ?_⟩
    rw [chainMarks, commandWord, tokens_space, tokens_word, tokens_spaced] at he
    obtain ⟨m, bs, b', rfl, hb', he⟩ := chainPhrase_else hu hx he
    obtain ⟨hbr, hbd⟩ := hb.read hc.1 hb' (by simp) (by simp) he
    exact ⟨⟨hbr, trivial⟩, Nat.succ_le_succ hbd⟩

/-- What is read of a script's canonical tokens says that it can be read, within these levels. -/
theorem script_readBack {s u : Script} (hc : s.Obeys .checked)
    (h : ScriptPhrase n (tokens (scriptMarks s.commands)) u) :
    s.Obeys .readable ∧ s.depth ≤ n := by
  obtain ⟨hs⟩ := h
  rw [tokens_scriptMarks] at hs
  have hend : EndsCommands .endOfInput := fun _ => by simp
  have he {us : List Token} : us ++ [.endOfInput] = us ++ [.endOfInput] := rfl
  obtain ⟨hr, hd⟩ :=
    sequence_readBack (fun c _ => commandCases_readBack.command c) hc.1 hs hend hend he
  exact ⟨⟨hr, trivial⟩, hd⟩

end Commands

end MailSieve
