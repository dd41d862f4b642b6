import MailSieve.Proofs.Phrase.Derivation

/-! A phrase within some levels of nesting is a phrase within more. -/

namespace MailSieve.Phrase

variable {α : Type} {ts : List Token}

theorem Sequence.imp {G H : List Token → α → Prop} (h : ∀ {ts a}, G ts a → H ts a) {as : List α}
    (hs : Sequence G ts as) : Sequence H ts as := by
  induction hs with
  | nil => exact .nil
  | cons hg _ ih => exact .cons (h hg) ih

theorem Separated.imp {G H : List Token → α → Prop} (h : ∀ {ts a}, G ts a → H ts a) {as : List α}
    (hs : Separated G ts as) : Separated H ts as := by
  induction hs with
  | single hg => exact .single (h hg)
  | cons hg _ ih => exact .cons (h hg) ih

theorem ArgumentsPhrase.imp {G H : List Token → Test → Prop} (h : ∀ {ts t}, G ts t → H ts t)
    {as : List Argument} (hs : ArgumentsPhrase G ts as) : ArgumentsPhrase H ts as := by
  induction hs with
  | nil => exact .nil
  | cons ha _ ih => exact .cons ha ih
  | test ht => exact .test (h ht)
  | tests hs => exact .tests (hs.imp h)

theorem TestForm.imp {G H : List Token → Test → Prop} (h : ∀ {ts t}, G ts t → H ts t) {t : Test}
    (ht : TestForm G ts t) : TestForm H ts t := by
  cases ht with
  | parens ht => exact .parens (h ht)
  | clause hc hl hx hp => exact .clause hc hl hx hp
  | negation ht => exact .negation (h ht)
  | allOf hs => exact .allOf (hs.imp h)
  | anyOf hs => exact .anyOf (hs.imp h)
  | generic hn ha => exact .generic hn (ha.imp h)

theorem CommandForm.imp {T T' : List Token → Test → Prop} {B B' : List Token → Block → Prop}
    {C C' : List Token → Chain → Prop} (ht : ∀ {ts t}, T ts t → T' ts t)
    (hb : ∀ {ts b}, B ts b → B' ts b) (hch : ∀ {ts c}, C ts c → C' ts c) {c : Command}
    (h : CommandForm T B C ts c) : CommandForm T' B' C' ts c := by
  cases h with
  | clause hc hl hx hp => exact .clause hc hl hx hp
  | ifTest t b ch => exact .ifTest (ht t) (hb b) (hch ch)
  | generic hn ha => exact .generic hn (ha.imp ht)
  | genericBlock hn ha b => exact .genericBlock hn (ha.imp ht) (hb b)

theorem testPhrase_succ {n : Nat} {t : Test} (h : TestPhrase n ts t) : TestPhrase (n + 1) ts t := by
  induction n generalizing ts t with
  | zero => exact h.elim
  | succ n ih => exact TestForm.imp ih h

theorem block_chain_succ (n : Nat) :
    (∀ {ts b}, BlockPhrase n ts b → BlockPhrase (n + 1) ts b)
      ∧ ∀ {ts c}, ChainPhrase n ts c → ChainPhrase (n + 1) ts c := by
  induction n with
  | zero =>
    constructor
    · intro ts b h
      exact h.elim
    · rintro _ _ ⟨rfl, rfl⟩
      exact .done
  | succ n ih =>
    obtain ⟨hb, hch⟩ := ih
    constructor
    · rintro _ _ ⟨hs⟩
      exact .mk (hs.imp (CommandForm.imp testPhrase_succ hb hch))
    · rintro _ _ (_ | ⟨t, b, c⟩ | b)
      · exact .done
      · exact .elsif (testPhrase_succ t) (hb b) (hch c)
      · exact .otherwise (hb b)

theorem commandPhrase_succ {n : Nat} {c : Command} (h : CommandPhrase n ts c) :
    CommandPhrase (n + 1) ts c :=
  CommandForm.imp testPhrase_succ (block_chain_succ n).1 (block_chain_succ n).2 h

theorem scriptPhrase_mono {m n : Nat} (hmn : m ≤ n) {s : Script} (h : ScriptPhrase m ts s) :
    ScriptPhrase n ts s := by
  induction hmn with
  | refl => exact h
  | step _ ih =>
    obtain ⟨hs⟩ := ih
    exact .mk (hs.imp commandPhrase_succ)

end MailSieve.Phrase
