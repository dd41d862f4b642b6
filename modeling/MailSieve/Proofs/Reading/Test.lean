import MailSieve.Proofs.Reading.TestClause

/-! Arguments and tests.
Given a parser for the tests within, the parsers here read the productions for tests; with `room`
levels left they read the tests within that many levels. A generic test takes every argument that
stands there, so what follows a test is never one. -/

namespace MailSieve

open Parse Phrase

variable {α β : Type} {o : ParseOptions}

namespace Phrase

/-- What `argument` reads: nothing, or one argument. -/
def ArgumentPhrase (inner : List Token → Test → Prop) (ts : List Token) : Option Argument → Prop
  | none => ts = []
  | some a => PlainArgument ts a
    ∨ (∃ us tests, ts = parenthesized us ∧ Separated inner us tests ∧ a = .tests tests none)
    ∨ ∃ name us t, ts = .word name :: us ∧ inner ts t ∧ a = .tests [t] none

def ArgumentAt (inner : List Token → Test → Prop) :
    Token → List Token → Option Argument → Prop
  | .tag name => fun ts r => ∃ us, ts = .tag name :: us ∧ us = [] ∧ r = some (.tag name none)
  | .number _ _ => fun ts r => ∃ n, NumberPhrase ts n ∧ r = some (.number n)
  | .string _ _ => fun ts r => ∃ s, StringPhrase ts s ∧ r = some (.string s)
  | .mark .openBracket => fun ts r => ∃ l, ListPhrase ts l ∧ r = some (.strings l)
  | .mark .openParen => fun ts r => ∃ us vs tests, ts = us ++ vs
      ∧ (∃ ws, us = parenthesized ws ∧ Separated inner ws tests)
      ∧ vs = [] ∧ r = some (.tests tests none)
  | .word _ => fun ts r => ∃ us vs t, ts = us ++ vs ∧ inner us t
      ∧ vs = [] ∧ r = some (.tests [t] none)
  | _ => fun ts r => ts = [] ∧ r = none

theorem ArgumentAt.phrase {inner : List Token → Test → Prop}
    (hne : ∀ {ts t}, inner ts t → ts ≠ []) {tok u : Token} {ts : List Token} {r : Option Argument}
    (ht : ts.headD u = tok) (h : ArgumentAt inner tok ts r) : ArgumentPhrase inner ts r := by
  cases tok with
  | tag name =>
    obtain ⟨_, rfl, rfl, rfl⟩ := h
    exact .inl (.tag name)
  | number value q =>
    obtain ⟨n, hn, rfl⟩ := h
    exact .inl (.number hn)
  | string value multiline =>
    obtain ⟨s, hs, rfl⟩ := h
    exact .inl (.string hs)
  | word name =>
    obtain ⟨us, _, t, rfl, hi, rfl, rfl⟩ := h
    obtain ⟨v, vs, rfl⟩ := List.exists_cons_of_ne_nil (hne hi)
    cases ht
    exact .inr (.inr ⟨name, vs, t, by simp, by simpa using hi, rfl⟩)
  | mark m =>
    cases m with
    | openBracket =>
      obtain ⟨l, ⟨⟨⟩⟩ | hl, rfl⟩ := h
      · cases ht
      · exact .inl (.strings hl)
    | openParen =>
      obtain ⟨_, _, tests, rfl, ⟨ws, rfl, hs⟩, rfl, rfl⟩ := h
      exact .inr (.inl ⟨ws, tests, by simp, hs, rfl⟩)
    | _ =>
      obtain ⟨rfl, rfl⟩ := h
      rfl
  | endOfInput =>
    obtain ⟨rfl, rfl⟩ := h
    rfl

/-- A list of tests is the last argument, and more arguments may follow any other. -/
def ArgumentCloses (a : Option Argument) (t : Token) : Prop :=
  (∀ b, a = some b → isTests b = true) → Closes t

theorem ArgumentPhrase.at_head {inner : List Token → Test → Prop} {ts : List Token}
    {r : Option Argument} {t : Token} (h : ArgumentPhrase inner ts r) (hc : ArgumentCloses r t) :
    ArgumentAt inner (ts.headD t) ts r := by
  cases r with
  | none =>
    cases h
    have hct : Closes t := hc nofun
    cases t with
    | mark m => cases m <;> first | exact ⟨rfl, rfl⟩ | cases hct
    | _ => first | exact ⟨rfl, rfl⟩ | cases hct
  | some a =>
    obtain (⟨name⟩ | ⟨⟨⟩⟩ | ⟨⟨⟩⟩ | ⟨⟨⟩⟩) | ⟨us, tests, rfl, hs, rfl⟩
      | ⟨name, us, t, rfl, ht, rfl⟩ := h
    · exact ⟨[], rfl, rfl, rfl⟩
    · exact ⟨_, .mk _ _, rfl⟩
    · exact ⟨_, .mk _ _, rfl⟩
    · exact ⟨_, .brackets (.mk ‹_›), rfl⟩
    · exact ⟨_, [], tests, by simp, ⟨us, rfl, hs⟩, rfl, rfl⟩
    · exact ⟨_, [], t, by simp, ht, rfl, rfl⟩

def KeywordForm (inner : List Token → Test → Prop) :
    TestKeyword → List Token → Test → Prop
  | .negation => fun ts t => ∃ u, inner ts u ∧ t = .negation u none
  | .allOf => fun ts t => ∃ us tests, ts = parenthesized us ∧ Separated inner us tests
      ∧ t = .allOf tests none
  | .anyOf => fun ts t => ∃ us tests, ts = parenthesized us ∧ Separated inner us tests
      ∧ t = .anyOf tests none
  | k => Leaf [] (TestClause k)

def NamedForm (inner : List Token → Test → Prop) (name : String) (ts : List Token) (t : Test) :
    Prop :=
  match TestKeyword.ofWord? name with
  | some k => KeywordForm inner k ts t
  | none => ∃ arguments, ArgumentsPhrase inner ts arguments ∧ t = .generic name arguments none

theorem PlainArgument.not_tests {ts : List Token} {a : Argument} (h : PlainArgument ts a) :
    isTests a = false := by
  cases h <;> rfl

theorem PlainArgument.ne_nil {ts : List Token} {a : Argument} (h : PlainArgument ts a) :
    ts ≠ [] := by
  obtain _ | ⟨⟨⟩⟩ | ⟨⟨⟩⟩ | ⟨⟨⟩⟩ := h <;> simp [bracketed]

theorem argumentsPhrase_iff {inner : List Token → Test → Prop} {ts : List Token}
    {as : List Argument} :
    Repeated isTests (ArgumentPhrase inner) ts as ↔ ArgumentsPhrase inner ts as := by
  constructor
  · intro h
    induction h with
    | stop h =>
      cases h
      exact .nil
    | last h hl =>
      obtain h | ⟨us, tests, rfl, hs, rfl⟩ | ⟨name, us, t, rfl, ht, rfl⟩ := h
      · rw [h.not_tests] at hl
        cases hl
      · exact .tests hs
      · exact .test ht
    | more h hl _ ih =>
      obtain h | ⟨us, tests, rfl, hs, rfl⟩ | ⟨name, us, t, rfl, ht, rfl⟩ := h
      · exact .cons h ih
      · cases hl
      · cases hl
  · intro h
    induction h with
    | nil => exact .stop rfl
    | cons h _ ih => exact .more (.inl h) h.not_tests ih
    | test h => exact .last (.inr (.inr ⟨_, _, _, rfl, h, rfl⟩)) rfl
    | tests h => exact .last (.inr (.inl ⟨_, _, rfl, h, rfl⟩)) rfl

theorem keywordForm_clause {inner : List Token → Test → Prop} {k : TestKeyword} {t : Test}
    {c : Clause} {ts : List Token} (hc : TestClause k c t) (h : ClausePhrase ts c) :
    KeywordForm inner k ts t := by
  have hleaf : Leaf [] (TestClause k) ts t := ⟨ts, c, by simp, h, hc⟩
  cases k <;> first | exact hleaf | (cases t <;> cases hc.1)

theorem testForm_iff {inner : List Token → Test → Prop} {ts : List Token} {t : Test} :
    TestForm inner ts t ↔ (∃ us, ts = parenthesized us ∧ inner us t)
      ∨ ∃ name us, ts = .word name :: us ∧ NamedForm inner name us t := by
  constructor
  · rintro (⟨h⟩ | ⟨hc, hl, hx, hp⟩ | h | h | h | ⟨hn, ha⟩)
    · exact .inl ⟨_, rfl, h⟩
    · refine .inr ⟨_, _, rfl, ?_⟩
      rw [NamedForm, TestKeyword.ofWord?_word]
      exact keywordForm_clause ⟨hc, hl, hx⟩ hp
    · exact .inr ⟨_, _, rfl, _, h, rfl⟩
    · exact .inr ⟨_, _, rfl, _, _, rfl, h, rfl⟩
    · exact .inr ⟨_, _, rfl, _, _, rfl, h, rfl⟩
    · refine .inr ⟨_, _, rfl, ?_⟩
      rw [NamedForm, hn]
      exact ⟨_, ha, rfl⟩
  · rintro (⟨us, rfl, h⟩ | ⟨name, us, rfl, h⟩)
    · exact .parens h
    · rw [NamedForm] at h
      split at h
      · next k hk =>
        rw [← Reads.ofWord_word (fun _ => rfl) hk]
        have hleaf (h : Leaf [] (TestClause k) us t) : TestForm inner (.word k.word :: us) t := by
          obtain ⟨us, c, rfl, hp, hc, hl, hx⟩ := h
          rw [List.append_nil]
          exact .clause hc hl hx hp
        cases k with
        | negation =>
          obtain ⟨u, hu, rfl⟩ := h
          exact .negation hu
        | allOf =>
          obtain ⟨us, tests, rfl, hs, rfl⟩ := h
          exact .allOf hs
        | anyOf =>
          obtain ⟨us, tests, rfl, hs, rfl⟩ := h
          exact .anyOf hs
        | _ => exact hleaf h
      · next hn =>
        obtain ⟨arguments, ha, rfl⟩ := h
        exact .generic hn ha

theorem testForm_ne_nil {inner : List Token → Test → Prop} {ts : List Token} {t : Test}
    (h : TestForm inner ts t) : ts ≠ [] := by
  obtain ⟨us, rfl, -⟩ | ⟨name, us, rfl, -⟩ := testForm_iff.1 h <;> simp [parenthesized]

theorem testPhrase_ne_nil {n : Nat} {ts : List Token} {t : Test} (h : TestPhrase n ts t) :
    ts ≠ [] := by
  cases n with
  | zero => cases h
  | succ n => exact testForm_ne_nil h

end Phrase

namespace Reads

variable {inner : Parse Test} {G : List Token → Test → Prop}

theorem testList (hi : Reads o inner G fun _ => Closes) :
    Reads o (testList inner) (fun ts tests => ∃ us, ts = parenthesized us ∧ Separated G us tests)
      Free := by
  refine (expectThen fun _ => (hi.commaSeparated rfl).bind
    (fun tests => expectThen fun _ => result tests) ?_).congr fun ts tests => ⟨?_, ?_⟩
  · rintro _ _ _ _ _ - ⟨_, rfl, -⟩ -
    exact ⟨rfl, by simp⟩
  · rintro ⟨_, rfl, us, _, tests, rfl, hs, _, rfl, rfl, rfl⟩
    exact ⟨us, rfl, hs⟩
  · rintro ⟨us, rfl, hs⟩
    exact ⟨_, rfl, us, _, tests, rfl, hs, [], rfl, rfl, rfl⟩

theorem argument (ho : o.locations = false) (hi : Reads o inner G fun _ => Closes)
    (hne : ∀ {ts t}, G ts t → ts ≠ []) :
    Reads o (argument inner) (ArgumentPhrase G) ArgumentCloses := by
  refine noteThen (noteThen (noteThen (noteThen (noteThen (noteThen
    (peekBy (H := ArgumentAt G) (fun l => ?_) ?_ ?_))))))
  · obtain ⟨tok, place, text⟩ := l
    have nothing : Reads o (pure none) (fun ts r => ts = [] ∧ r = (none : Option Argument))
        ArgumentCloses := (result none).follow fun _ _ => trivial
    cases tok with
    | tag name =>
      exact advanceThen (by simp) fun _ => locatedThen ho _
        ((result (some (Argument.tag name none))).follow fun _ _ => trivial)
    | number value q =>
      exact at_token (((number ho).map fun n => some (Argument.number n)).follow
        fun _ _ => trivial) _
    | string value multiline =>
      exact at_token (((string ho).map fun s => some (Argument.string s)).follow
        fun _ _ => trivial) _
    | word name =>
      refine at_token (hi.bind (fun t => spanThen ho _
        ((result (some (Argument.tests [t] none))).follow fun _ _ => trivial)) ?_) _
      rintro us _ t _ u - ⟨rfl, rfl⟩ hu
      exact hu fun b hb => by cases hb; rfl
    | mark m =>
      cases m with
      | openBracket =>
        exact at_token (((stringList ho).map fun l => some (Argument.strings l)).follow
          fun _ _ => trivial) _
      | openParen =>
        exact at_token ((testList hi).andThen fun tests => spanThen ho _
          ((result (some (Argument.tests tests none))).follow fun _ _ => trivial)) _
      | _ => exact at_token nothing _
    | endOfInput => exact at_token nothing _
  · exact fun ht h => h.phrase hne ht
  · exact fun h hc => h.at_head hc

theorem arguments (ho : o.locations = false) (hi : Reads o inner G fun _ => Closes)
    (hne : ∀ {ts t}, G ts t → ts ≠ []) :
    Reads o (arguments inner) (ArgumentsPhrase G) fun _ => Closes := by
  refine ((argument ho hi hne).manyUntil ?_ ?_ ?_ ?_).congr fun ts as => argumentsPhrase_iff
  · rintro ts a (h | ⟨us, tests, rfl, -⟩ | ⟨name, us, t, rfl, -⟩)
    · exact h.ne_nil
    · simp [parenthesized]
    · simp
  · exact fun _ ht _ => ht
  · exact fun _ _ ht _ => ht
  · intro ts us a as t _ hl _ _ hc
    rw [hc a rfl] at hl
    cases hl

def WordAt (H : String → List Token → β → Prop) : Token → List Token → β → Prop
  | .word name => fun ts b => ∃ us, ts = .word name :: us ∧ H name us b
  | _ => fun _ _ => False

theorem wordThen {q : String → Lexeme → Parse β} {H : String → List Token → β → Prop}
    {K : β → Token → Prop} (hq : ∀ name l, Reads o (q name l) (H name) K) :
    Reads o
      (note (.tokenClass "identifier") >>= fun _ => peek >>= fun l =>
        match l.token with
        | .word name => advance >>= fun _ => q name l
        | _ => fail)
      (fun ts b => ∃ name us, ts = .word name :: us ∧ H name us b) K := by
  refine noteThen (peekBy (H := WordAt H) (fun l => ?_) ?_ ?_)
  · have nothing : Reads o (fail : Parse β) (fun _ _ => False) K :=
      never (fun _ _ _ h => fail_ok.1 h) (fun _ _ => id)
    obtain ⟨tok, place, text⟩ := l
    cases tok with
    | word name => exact advanceThen (by simp) fun _ => hq name _
    | _ => exact at_token nothing _
  · intro tok ts b u _ h
    cases tok with
    | word name =>
      obtain ⟨us, rfl, h⟩ := h
      exact ⟨name, us, rfl, h⟩
    | _ => cases h
  · rintro _ b t ⟨name, us, rfl, h⟩ -
    exact ⟨us, rfl, h⟩

theorem keywordTest (ho : o.locations = false) (hi : Reads o inner G fun _ => Closes)
    (start : Position) (k : TestKeyword) :
    Reads o (keywordTest inner start k) (KeywordForm G k) fun _ => Closes := by
  have list (f : List Test → Option Location → Test) :
      Reads o
        (do
          let tests ← Parse.testList inner
          pure (f tests (← span start)))
        (fun ts t => ∃ us tests, ts = parenthesized us ∧ Separated G us tests
          ∧ t = f tests none) fun _ => Closes := by
    refine ((testList hi).andThen fun tests => spanThen ho start
      ((result (f tests none)).follow fun _ _ => trivial)).congr fun ts t => ⟨?_, ?_⟩
    · rintro ⟨_, _, tests, rfl, ⟨us, rfl, hs⟩, rfl, rfl⟩
      exact ⟨us, tests, by simp, hs, rfl⟩
    · rintro ⟨us, tests, rfl, hs, rfl⟩
      exact ⟨_, [], tests, by simp, ⟨us, rfl, hs⟩, rfl, rfl⟩
  cases k with
  | always => exact alwaysTest ho start
  | never => exact neverTest ho start
  | negation =>
    refine (hi.bind (fun t => spanThen ho start
      ((result (Test.negation t none)).follow fun _ _ => trivial)) ?_).congr fun ts t => ⟨?_, ?_⟩
    · rintro us _ t _ u - ⟨rfl, rfl⟩ hu
      exact hu
    · rintro ⟨us, _, t, rfl, ht, rfl, rfl⟩
      exact ⟨t, by simpa using ht, rfl⟩
    · rintro ⟨t, ht, rfl⟩
      exact ⟨ts, [], t, by simp, ht, rfl, rfl⟩
  | allOf => exact list Test.allOf
  | anyOf => exact list Test.anyOf
  | address => exact addressTest ho start
  | header => exact headerTest ho start
  | envelope => exact envelopeTest ho start
  | headerExists => exact existsTest ho start
  | size => exact sizeTest ho start
  | body => exact bodyTest ho start
  | date => exact dateTest ho start
  | currentDate => exact currentDateTest ho start
  | hasFlag => exact hasFlagTest ho start
  | string => exact stringTest ho start
  | ihave => exact ihaveTest ho start
  | duplicate => exact duplicateTest ho start

theorem namedTest (ho : o.locations = false) (hi : Reads o inner G fun _ => Closes)
    (hne : ∀ {ts t}, G ts t → ts ≠ []) (name : String) (start : Position) :
    Reads o
      (match TestKeyword.ofWord? name with
        | some keyword => Parse.keywordTest inner start keyword
        | none => genericTest inner name start)
      (NamedForm G name) fun _ => Closes := by
  unfold NamedForm
  cases TestKeyword.ofWord? name with
  | some k => exact keywordTest ho hi start k
  | none =>
    refine ((arguments ho hi hne).bind (fun args => spanThen ho start
      ((result (Test.generic name args none)).follow fun _ _ => trivial)) ?_).congr
      fun ts t => ⟨?_, ?_⟩
    · rintro us _ t _ u - ⟨rfl, rfl⟩ hu
      exact hu
    · rintro ⟨us, _, args, rfl, ha, rfl, rfl⟩
      exact ⟨args, by simpa using ha, rfl⟩
    · rintro ⟨args, ha, rfl⟩
      exact ⟨ts, [], args, by simp, ha, rfl, rfl⟩

theorem testWith (ho : o.locations = false) (hi : Reads o inner G fun _ => Closes)
    (hne : ∀ {ts t}, G ts t → ts ≠ []) :
    Reads o (testWith inner) (TestForm G) fun _ => Closes := by
  have parens : Reads o (inner >>= fun t => expect .closeParen >>= fun _ => pure t)
      (fun ts t => ∃ us, ts = us ++ [.mark .closeParen] ∧ G us t) fun _ => Closes := by
    refine (hi.bind (fun t => expectThen fun _ => (result t).follow fun _ _ => trivial) ?_).congr
      fun ts t => ⟨?_, ?_⟩
    · rintro us _ t _ u - ⟨_, rfl, -⟩ -
      rfl
    · rintro ⟨us, _, t, rfl, ht, _, rfl, rfl, rfl⟩
      exact ⟨us, rfl, ht⟩
    · rintro ⟨us, rfl, ht⟩
      exact ⟨us, _, t, rfl, ht, [], rfl, rfl, rfl⟩
  have hrun : Parse.testWith inner = Parse.eat .openParen >>= fun b =>
      if b then inner >>= fun t => expect .closeParen >>= fun _ => pure t
      else note (.tokenClass "identifier") >>= fun _ => peek >>= fun l =>
        match l.token with
        | .word name => advance >>= fun _ =>
          match TestKeyword.ofWord? name with
          | some keyword => Parse.keywordTest inner l.location.start keyword
          | none => genericTest inner name l.location.start
        | _ => fail := by
    rw [← eat_bind]
    rfl
  rw [hrun]
  refine (eatThen parens (wordThen fun name l => namedTest ho hi hne name l.location.start)
    ?_).congr fun ts t => ?_
  · rintro _ _ _ ⟨name, us, rfl, -⟩ -
    simp
  · rw [testForm_iff]
    refine or_congr_left ⟨?_, ?_⟩
    · rintro ⟨_, rfl, us, rfl, ht⟩
      exact ⟨us, rfl, ht⟩
    · rintro ⟨us, rfl, ht⟩
      exact ⟨_, rfl, us, rfl, ht⟩

theorem test (ho : o.locations = false) (n : Nat) :
    Reads o (test n) (TestPhrase n) fun _ => Closes := by
  induction n with
  | zero => exact never (fun _ _ _ h => nomatch h) (fun _ _ => id)
  | succ n ih => exact testWith ho ih testPhrase_ne_nil

end Reads

end MailSieve
