import MailSieve.Proofs.Phrase.Clause

/-! The grammar of the filter language.
`TestPhrase n`, `BlockPhrase n` and the others say which tokens denote which location-free trees
within `n` levels of nesting. A form gives the productions of one kind of phrase in terms of the
phrases within it; the relations close the forms, one level at a time. A block, a test, and a test
in parentheses are one level deeper than what they stand in. A link of an `if` chain is one level
deeper than the link before it. -/

namespace MailSieve.Phrase

/-- An argument of a generic command or test that is no test. -/
inductive PlainArgument : List Token → Argument → Prop where
  | tag (name : String) : PlainArgument [.tag name] (.tag name none)
  | number {ts : List Token} {n : NumberLit} : NumberPhrase ts n → PlainArgument ts (.number n)
  | string {ts : List Token} {s : StringLit} : StringPhrase ts s → PlainArgument ts (.string s)
  | strings {ts : List Token} {l : StringList} : BracketPhrase ts l → PlainArgument ts (.strings l)

/-- `*argument [test / test-list]`. A test in parentheses is a list of one. -/
inductive ArgumentsPhrase (inner : List Token → Test → Prop) :
    List Token → List Argument → Prop where
  | nil : ArgumentsPhrase inner [] []
  | cons {ts us : List Token} {a : Argument} {as : List Argument} :
    PlainArgument ts a → ArgumentsPhrase inner us as → ArgumentsPhrase inner (ts ++ us) (a :: as)
  | test {name : String} {ts : List Token} {t : Test} :
    inner (.word name :: ts) t → ArgumentsPhrase inner (.word name :: ts) [.tests [t] none]
  | tests {ts : List Token} {tests : List Test} :
    Separated inner ts tests →
    ArgumentsPhrase inner (parenthesized ts) [.tests tests none]

inductive TestForm (inner : List Token → Test → Prop) : List Token → Test → Prop where
  | parens {ts : List Token} {t : Test} : inner ts t → TestForm inner (parenthesized ts) t
  | clause {ts : List Token} {t : Test} {k : TestKeyword} {c : Clause} :
    t.clause? = some (k, c) → t.location = none → t.Obeys .readable → ClausePhrase ts c →
    TestForm inner (.word k.word :: ts) t
  | negation {ts : List Token} {t : Test} :
    inner ts t → TestForm inner (.word "not" :: ts) (.negation t none)
  | allOf {ts : List Token} {tests : List Test} :
    Separated inner ts tests →
      TestForm inner (.word "allof" :: parenthesized ts) (.allOf tests none)
  | anyOf {ts : List Token} {tests : List Test} :
    Separated inner ts tests →
      TestForm inner (.word "anyof" :: parenthesized ts) (.anyOf tests none)
  | generic {ts : List Token} {name : String} {arguments : List Argument} :
    TestKeyword.ofWord? name = none → ArgumentsPhrase inner ts arguments →
    TestForm inner (.word name :: ts) (.generic name arguments none)

/-- Tests within so many levels. -/
def TestPhrase : Nat → List Token → Test → Prop
  | 0 => fun _ _ => False
  | n + 1 => TestForm (TestPhrase n)

/-- Every command but `if` and one with a block ends in a semicolon. -/
inductive CommandForm (test : List Token → Test → Prop) (block : List Token → Block → Prop)
    (chain : List Token → Chain → Prop) : List Token → Command → Prop where
  | clause {ts : List Token} {c : Command} {k : CommandKeyword} {cl : Clause} :
    c.clause? = some (k, cl) → c.location = none → c.Obeys .readable → ClausePhrase ts cl →
    CommandForm test block chain (.word k.word :: ts ++ [.mark .semicolon]) c
  | ifTest {ts us vs : List Token} {t : Test} {b : Block} {c : Chain} :
    test ts t → block us b → chain vs c →
    CommandForm test block chain (.word "if" :: ts ++ us ++ vs) (.ifTest t b c none)
  | generic {ts : List Token} {name : String} {arguments : List Argument} :
    CommandKeyword.ofWord? name = none → ArgumentsPhrase test ts arguments →
    CommandForm test block chain (.word name :: ts ++ [.mark .semicolon])
      (.generic name arguments none)
  | genericBlock {ts us : List Token} {name : String} {arguments : List Argument} {b : Block} :
    CommandKeyword.ofWord? name = none → ArgumentsPhrase test ts arguments → block us b →
    CommandForm test block chain (.word name :: ts ++ us) (.genericBlock name arguments b none)

inductive BlockForm (command : List Token → Command → Prop) : List Token → Block → Prop where
  | mk {ts : List Token} {cs : List Command} :
    Sequence command ts cs → BlockForm command (braced ts) (.mk cs none)

/-- The links of an `if` chain from some link on. -/
inductive ChainForm (test : List Token → Test → Prop) (block : List Token → Block → Prop)
    (chain : List Token → Chain → Prop) : List Token → Chain → Prop where
  | done : ChainForm test block chain [] .done
  | elsif {ts us vs : List Token} {t : Test} {b : Block} {c : Chain} :
    test ts t → block us b → chain vs c →
    ChainForm test block chain (.word "elsif" :: ts ++ us ++ vs) (.elsif t b c none)
  | otherwise {ts : List Token} {b : Block} :
    block ts b → ChainForm test block chain (.word "else" :: ts) (.otherwise b none)

mutual

def BlockPhrase : Nat → List Token → Block → Prop
  | 0 => fun _ _ => False
  | n + 1 => BlockForm (CommandForm (TestPhrase n) (BlockPhrase n) (ChainPhrase n))

def ChainPhrase : Nat → List Token → Chain → Prop
  | 0 => fun ts c => ts = [] ∧ c = .done
  | n + 1 => ChainForm (TestPhrase n) (BlockPhrase n) (ChainPhrase n)

end

def CommandPhrase (n : Nat) : List Token → Command → Prop :=
  CommandForm (TestPhrase n) (BlockPhrase n) (ChainPhrase n)

/-- The tokens of a script, without the end of the input. -/
inductive ScriptPhrase (n : Nat) : List Token → Script → Prop where
  | mk {ts : List Token} {cs : List Command} :
    Sequence (CommandPhrase n) ts cs → ScriptPhrase n ts ⟨cs, none⟩

end MailSieve.Phrase
