import MailSieve.Proofs.Phrase.Clause

/-! Induction over trees.
The cases of a proof follow the grammar: one for all nodes of fixed shape, one for each way in which
nodes hold others. -/

namespace MailSieve

open Phrase

/-- The cases of an induction over tests. -/
structure TestCases (P : Test → Prop) : Prop where
  clause : ∀ {t k c}, t.clause? = some (k, c) → P t
  negation : ∀ {t l}, P t → P (.negation t l)
  allOf : ∀ {ts l}, (∀ t ∈ ts, P t) → P (.allOf ts l)
  anyOf : ∀ {ts l}, (∀ t ∈ ts, P t) → P (.anyOf ts l)
  generic : ∀ {name as l}, (∀ ts l', .tests ts l' ∈ as → ∀ t ∈ ts, P t) → P (.generic name as l)

mutual

theorem TestCases.test {P : Test → Prop} (h : TestCases P) : ∀ t, P t
  | .negation t _ => h.negation (h.test t)
  | .allOf ts _ => h.allOf (h.tests ts)
  | .anyOf ts _ => h.anyOf (h.tests ts)
  | .generic _ as _ => h.generic (h.arguments as)
  | .always _ => h.clause rfl
  | .never _ => h.clause rfl
  | .address _ => h.clause rfl
  | .header _ => h.clause rfl
  | .envelope _ => h.clause rfl
  | .headerExists _ _ => h.clause rfl
  | .size _ => h.clause rfl
  | .body _ => h.clause rfl
  | .date _ => h.clause rfl
  | .currentDate _ => h.clause rfl
  | .hasFlag _ => h.clause rfl
  | .string _ => h.clause rfl
  | .ihave _ _ => h.clause rfl
  | .duplicate _ => h.clause rfl

theorem TestCases.tests {P : Test → Prop} (h : TestCases P) : ∀ (ts : List Test), ∀ t ∈ ts, P t
  | [] => by simp
  | t :: ts => List.forall_mem_cons.2 ⟨h.test t, h.tests ts⟩

theorem TestCases.argument {P : Test → Prop} (h : TestCases P) :
    ∀ (a : Argument) ts l, a = .tests ts l → ∀ t ∈ ts, P t
  | .tests ts _, _, _, ha => by
    cases ha
    exact h.tests ts

theorem TestCases.arguments {P : Test → Prop} (h : TestCases P) :
    ∀ (as : List Argument) ts l, .tests ts l ∈ as → ∀ t ∈ ts, P t
  | a :: as, ts, l, hm => by
    obtain ha | hm := List.mem_cons.1 hm
    · exact h.argument a ts l ha.symm
    · exact h.arguments as ts l hm

end

/-- The cases of an induction over commands, blocks and chains. -/
structure CommandCases (P : Command → Prop) (B : Block → Prop) (C : Chain → Prop) : Prop where
  clause : ∀ {c k cl}, c.clause? = some (k, cl) → P c
  ifTest : ∀ {t b c l}, B b → C c → P (.ifTest t b c l)
  generic : ∀ {name as l}, P (.generic name as l)
  genericBlock : ∀ {name as b l}, B b → P (.genericBlock name as b l)
  block : ∀ {cs l}, (∀ c ∈ cs, P c) → B (.mk cs l)
  done : C .done
  elsif : ∀ {t b c l}, B b → C c → C (.elsif t b c l)
  otherwise : ∀ {b l}, B b → C (.otherwise b l)

mutual

theorem CommandCases.command {P : Command → Prop} {B : Block → Prop} {C : Chain → Prop}
    (h : CommandCases P B C) : ∀ c, P c
  | .ifTest _ b c _ => h.ifTest (h.body b) (h.chain c)
  | .generic _ _ _ => h.generic
  | .genericBlock _ _ b _ => h.genericBlock (h.body b)
  | .require _ => h.clause rfl
  | .stop _ => h.clause rfl
  | .keep _ => h.clause rfl
  | .fileInto _ => h.clause rfl
  | .redirect _ => h.clause rfl
  | .discard _ => h.clause rfl
  | .reject _ => h.clause rfl
  | .setVariable _ => h.clause rfl
  | .vacation _ => h.clause rfl
  | .flag _ => h.clause rfl
  | .notify _ => h.clause rfl

theorem CommandCases.commands {P : Command → Prop} {B : Block → Prop} {C : Chain → Prop}
    (h : CommandCases P B C) : ∀ (cs : List Command), ∀ c ∈ cs, P c
  | [] => by simp
  | c :: cs => List.forall_mem_cons.2 ⟨h.command c, h.commands cs⟩

theorem CommandCases.body {P : Command → Prop} {B : Block → Prop} {C : Chain → Prop}
    (h : CommandCases P B C) : ∀ b, B b
  | .mk cs _ => h.block (h.commands cs)

theorem CommandCases.chain {P : Command → Prop} {B : Block → Prop} {C : Chain → Prop}
    (h : CommandCases P B C) : ∀ c, C c
  | .done => h.done
  | .elsif _ b c _ => h.elsif (h.body b) (h.chain c)
  | .otherwise b _ => h.otherwise (h.body b)

end

end MailSieve
