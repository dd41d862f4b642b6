import MailSieve.Proofs.Reading.Command

/-! A clause in the middle of a script.
Wherever a keyword stands that a clause belongs to, the tokens behind it are a text of the clause,
and any other text of the same clause could stand there. In a test this is so at every word; among
commands the token before the word tells where a command begins. -/

namespace MailSieve.Phrase

variable {α : Type} {name : String} {K : Clause → Prop} {ts us pre more : List Token}

/-- The first token, if there is one, is no tag. -/
def NoTag (ts : List Token) : Prop := ∀ t ∈ ts.head?, isTag t = false

/-- A token after which a command begins, or one of the ends of a block. -/
def Boundary (t : Token) : Prop :=
  t = .mark .semicolon ∨ t = .mark .openBrace ∨ t = .mark .closeBrace

def Plain : Token → Prop
  | .tag _ | .string _ _ | .number _ _ => True
  | .mark p => p = .openBracket ∨ p = .comma ∨ p = .closeBracket
  | .word _ | .endOfInput => False

/-- Behind the word stands a text of a clause that `K` holds of, and every other text of the clause
could stand there. -/
def Exchangeable (name : String) (K : Clause → Prop) (G : List Token → Prop)
    (pre more : List Token) : Prop :=
  ∃ us rest c, more = us ++ rest ∧ NoTag rest ∧ K c ∧ ClausePhrase us c
    ∧ ∀ vs, ClausePhrase vs c → G (pre ++ .word name :: (vs ++ rest))

section Splits

theorem noTag_append (ht : NoTag ts) (hu : NoTag us) : NoTag (ts ++ us) := by
  cases ts with
  | nil => exact hu
  | cons t ts => exact ht

theorem append_eq_append_cons {t : Token} (h : ts ++ us = pre ++ t :: more) :
    (∃ mid, ts = pre ++ t :: mid ∧ more = mid ++ us) ∨ ∃ mid, pre = ts ++ mid
      ∧ us = mid ++ t :: more := by
  obtain ⟨mid, hpre, hus⟩ | ⟨mid, hts, hmore⟩ := List.append_eq_append_iff.1 h
  · exact .inr ⟨mid, hpre, hus⟩
  · obtain ⟨rfl, rfl⟩ | ⟨mid, rfl, hmore⟩ := List.cons_eq_append_iff.1 hmore
    · exact .inr ⟨[], by simpa using hts.symm, rfl⟩
    · exact .inl ⟨mid, hts, List.cons.inj hmore |>.2⟩

theorem cons_eq_append_cons {t u : Token} (h : u :: ts = pre ++ t :: more) :
    (pre = [] ∧ u = t ∧ ts = more) ∨ ∃ mid, pre = u :: mid ∧ ts = mid ++ t :: more := by
  obtain ⟨rfl, h⟩ | ⟨mid, rfl, h⟩ := List.cons_eq_append_iff.1 h
  · obtain ⟨rfl, rfl⟩ := List.cons.inj h
    exact .inl ⟨rfl, rfl, rfl⟩
  · exact .inr ⟨mid, rfl, (List.cons.inj h).2⟩

theorem Exchangeable.within {G G' : List Token → Prop} {p m : List Token}
    (h : Exchangeable name K G p m) (xs : List Token) {ys : List Token} (hy : NoTag ys)
    (hG : ∀ ts, G ts → G' (xs ++ (ts ++ ys))) (hp : pre = xs ++ p := by simp)
    (hm : more = m ++ ys := by simp) : Exchangeable name K G' pre more := by
  obtain ⟨us, rest, c, rfl, hr, hK, hc, hvs⟩ := h
  subst hp hm
  refine ⟨us, rest ++ ys, c, List.append_assoc _ _ _, noTag_append hr hy, hK, hc, fun vs hv => ?_⟩
  have hG' := hG _ (hvs vs hv)
  simpa using hG'

end Splits

theorem noTag_nil : NoTag [] := nofun

theorem noTag_mark {p : Punctuation} : NoTag (.mark p :: ts) := by
  rintro _ ⟨⟩
  rfl

theorem noTag_word {word : String} : NoTag (.word word :: ts) := by
  rintro _ ⟨⟩
  rfl

section PlainTokens

theorem StringPhrase.plain {s : StringLit} (h : StringPhrase ts s) : ∀ t ∈ ts, Plain t := by
  cases h
  simp [Plain]

theorem NumberPhrase.plain {n : NumberLit} (h : NumberPhrase ts n) : ∀ t ∈ ts, Plain t := by
  cases h
  simp [Plain]

theorem BracketPhrase.plain {l : StringList} (h : BracketPhrase ts l) : ∀ t ∈ ts, Plain t := by
  obtain ⟨hs⟩ := h
  rw [bracketed, List.cons_append, List.forall_mem_cons, List.forall_mem_append]
  refine ⟨.inl rfl, ?_, by simp [Plain]⟩
  induction hs with
  | single hs => exact hs.plain
  | cons hs _ ih =>
    exact List.forall_mem_append.2 ⟨hs.plain, List.forall_mem_cons.2 ⟨.inr (.inl rfl), ih⟩⟩

theorem ListPhrase.plain {l : StringList} (h : ListPhrase ts l) : ∀ t ∈ ts, Plain t := by
  cases h with
  | single hs => exact hs.plain
  | brackets hb => exact hb.plain

theorem SettingPhrase.plain {s : Setting} (h : SettingPhrase ts s) : ∀ t ∈ ts, Plain t := by
  obtain ⟨name, value⟩ := s
  obtain ⟨hv⟩ := h
  refine List.forall_mem_cons.2 ⟨trivial, ?_⟩
  cases hv with
  | none => simp
  | string hs => exact hs.plain
  | strings hl => exact hl.plain
  | number hn => exact hn.plain
  | operator | importance => simp [Plain]

theorem PositionalPhrase.plain {p : Positional} (h : PositionalPhrase ts p) :
    ∀ t ∈ ts, Plain t := by
  cases h with
  | string hs => exact hs.plain
  | strings hl | texts hl => exact hl.plain
  | number hn => exact hn.plain

theorem Sequence.forall {item : List Token → α → Prop} {P : Token → Prop} {as : List α}
    (hitem : ∀ {ts a}, item ts a → ∀ t ∈ ts, P t) (h : Sequence item ts as) : ∀ t ∈ ts, P t := by
  induction h with
  | nil => simp
  | cons ha _ ih => exact List.forall_mem_append.2 ⟨hitem ha, ih⟩

theorem ClausePhrase.plain {c : Clause} (h : ClausePhrase ts c) : ∀ t ∈ ts, Plain t := by
  obtain ⟨-, hs, hp⟩ := h
  exact List.forall_mem_append.2 ⟨hs.forall SettingPhrase.plain, hp.forall PositionalPhrase.plain⟩

theorem PlainArgument.plain {a : Argument} (h : PlainArgument ts a) : ∀ t ∈ ts, Plain t := by
  cases h with
  | tag name => simp [Plain]
  | number hn => exact hn.plain
  | string hs => exact hs.plain
  | strings hb => exact hb.plain

theorem not_word_of_plain (h : ∀ t ∈ ts, Plain t) : ts ≠ pre ++ .word name :: more := by
  rintro rfl
  exact h (.word name) (by simp)

end PlainTokens

section Tests

/-- At every word of the name. -/
structure Everywhere (name : String) (K : Clause → Prop) (G : List Token → α → Prop) : Prop where
  site : ∀ {pre more a}, G (pre ++ .word name :: more) a → Exchangeable name K (G · a) pre more

variable {inner : List Token → Test → Prop}

theorem separated_everywhere (hT : Everywhere name K inner) :
    Everywhere name K (Separated inner) := by
  refine ⟨fun {pre more as} h => ?_⟩
  generalize hts : pre ++ .word name :: more = ts at h
  induction h generalizing pre with
  | single ha =>
    subst hts
    exact (hT.site ha).within [] noTag_nil fun _ h => by simpa using .single h
  | @cons ts us a as ha has ih =>
    obtain ⟨mid, rfl, rfl⟩ | ⟨mid, rfl, hus⟩ := append_eq_append_cons hts.symm
    · exact (hT.site ha).within [] noTag_mark fun _ h => .cons h has
    · obtain ⟨-, ht, -⟩ | ⟨mid, rfl, rfl⟩ := cons_eq_append_cons hus
      · cases ht
      · exact (ih rfl).within (ts ++ [.mark .comma]) noTag_nil
          fun vs h => by simpa using .cons ha h

theorem parenthesized_eq_append_cons (h : parenthesized ts = pre ++ .word name :: more) :
    ∃ mid rest, pre = .mark .openParen :: mid ∧ ts = mid ++ .word name :: rest
      ∧ more = rest ++ [.mark .closeParen] := by
  rw [parenthesized, List.cons_append] at h
  obtain ⟨-, ht, -⟩ | ⟨mid, rfl, hmid⟩ := cons_eq_append_cons h
  · cases ht
  · obtain ⟨rest, rfl, rfl⟩ | ⟨rest, rfl, hrest⟩ := append_eq_append_cons hmid
    · exact ⟨mid, rest, rfl, rfl, rfl⟩
    · obtain ⟨-, ht, -⟩ | ⟨_, rfl, hnil⟩ := cons_eq_append_cons hrest
      · cases ht
      · simp at hnil

theorem arguments_everywhere (hT : Everywhere name K inner) :
    Everywhere name K (ArgumentsPhrase inner) := by
  refine ⟨fun {pre more as} h => ?_⟩
  generalize hts : pre ++ .word name :: more = ts at h
  induction h generalizing pre with
  | nil => simp at hts
  | @cons ts us a as ha has ih =>
    obtain ⟨mid, hmid, -⟩ | ⟨mid, rfl, rfl⟩ := append_eq_append_cons hts.symm
    · exact absurd hmid (not_word_of_plain ha.plain)
    · exact (ih rfl).within ts noTag_nil fun vs h => by simpa using .cons ha h
  | @test head ts t ht =>
    rw [← hts] at ht
    obtain ⟨us, rest, c, rfl, hr, hK, hc, hvs⟩ := hT.site ht
    refine ⟨us, rest, c, rfl, hr, hK, hc, fun vs hv => ?_⟩
    obtain ⟨rfl, -, -⟩ | ⟨mid, rfl, -⟩ := cons_eq_append_cons hts.symm
    · exact .test (hvs vs hv)
    · exact .test (hvs vs hv)
  | @tests ts tests hs =>
    obtain ⟨mid, rest, rfl, rfl, rfl⟩ := parenthesized_eq_append_cons hts.symm
    exact ((separated_everywhere hT).site hs).within [.mark .openParen] noTag_mark
      fun _ h => .tests h

variable {k : TestKeyword}

theorem testForm_everywhere (hk : KeywordForm inner k = Leaf [] (TestClause k))
    (hT : Everywhere k.word (fun c => ∃ t, TestClause k c t) inner) :
    Everywhere k.word (fun c => ∃ t, TestClause k c t) (TestForm inner) := by
  refine ⟨fun {pre more t} h => ?_⟩
  cases pre with
  | nil =>
    obtain ⟨us, hu, -⟩ | ⟨name, us, hu, hn⟩ := testForm_iff.1 h
    · cases hu
    · cases hu
      rw [NamedForm, TestKeyword.ofWord?_word] at hn
      simp only [hk] at hn
      obtain ⟨us, c, rfl, hp, hc, hl, hx⟩ := hn
      exact ⟨us, [], c, rfl, noTag_nil, ⟨t, hc, hl, hx⟩, hp,
        fun vs hv => by simpa using .clause hc hl hx hv⟩
  | cons p pre =>
    generalize hts : p :: pre ++ .word k.word :: more = ts at h
    cases h with
    | parens ht =>
      obtain ⟨mid, rest, hmid, rfl, rfl⟩ := parenthesized_eq_append_cons hts.symm
      cases hmid
      exact (hT.site ht).within [.mark .openParen] noTag_mark fun _ h => .parens h
    | clause hc hl hx hp =>
      exact absurd (List.cons.inj hts.symm).2 (not_word_of_plain hp.plain)
    | negation ht =>
      cases hts
      exact (hT.site ht).within [.word "not"] noTag_nil fun _ h => by simpa using .negation h
    | allOf hs =>
      obtain ⟨rfl, hpre⟩ := List.cons.inj hts
      obtain ⟨mid, rest, rfl, rfl, rfl⟩ := parenthesized_eq_append_cons hpre.symm
      exact ((separated_everywhere hT).site hs).within [.word "allof", .mark .openParen] noTag_mark
        fun _ h => .allOf h
    | anyOf hs =>
      obtain ⟨rfl, hpre⟩ := List.cons.inj hts
      obtain ⟨mid, rest, rfl, rfl, rfl⟩ := parenthesized_eq_append_cons hpre.symm
      exact ((separated_everywhere hT).site hs).within [.word "anyof", .mark .openParen] noTag_mark
        fun _ h => .anyOf h
    | @generic _ name as hn ha =>
      cases hts
      exact ((arguments_everywhere hT).site ha).within [.word name] noTag_nil
        fun _ h => by simpa using .generic hn h

/-- In a test every word that can name the test does. -/
theorem testPhrase_everywhere (hk : ∀ inner, KeywordForm inner k = Leaf [] (TestClause k))
    (n : Nat) : Everywhere k.word (fun c => ∃ t, TestClause k c t) (TestPhrase n) := by
  induction n with
  | zero => exact ⟨fun h => h.elim⟩
  | succ n ih => exact testForm_everywhere (hk _) ih

end Tests

section Boundaries

def Inside (ts : List Token) : Prop := ∀ t ∈ ts, ¬ Boundary t

variable {inner : List Token → Test → Prop}

theorem inside_cons {t : Token} : Inside (t :: ts) ↔ ¬ Boundary t ∧ Inside ts :=
  List.forall_mem_cons

theorem inside_append : Inside (ts ++ us) ↔ Inside ts ∧ Inside us := List.forall_mem_append

theorem inside_of_plain (h : ∀ t ∈ ts, Plain t) : Inside ts := by
  rintro t ht (rfl | rfl | rfl)
  · simpa [Plain] using h _ ht
  · simpa [Plain] using h _ ht
  · simpa [Plain] using h _ ht

theorem not_boundary_word : ¬ Boundary (.word name) := by simp [Boundary]

theorem inside_parenthesized (h : Inside ts) : Inside (parenthesized ts) := by
  rw [parenthesized, inside_append, inside_cons]
  exact ⟨⟨by simp [Boundary], h⟩, by simp [Inside, Boundary]⟩

theorem separated_inside (hT : ∀ {ts t}, inner ts t → Inside ts) {tests : List Test}
    (h : Separated inner ts tests) : Inside ts := by
  induction h with
  | single h => exact hT h
  | cons h _ ih => exact inside_append.2 ⟨hT h, inside_cons.2 ⟨by simp [Boundary], ih⟩⟩

theorem arguments_inside (hT : ∀ {ts t}, inner ts t → Inside ts) {as : List Argument}
    (h : ArgumentsPhrase inner ts as) : Inside ts := by
  induction h with
  | nil => simp [Inside]
  | cons ha _ ih => exact inside_append.2 ⟨inside_of_plain ha.plain, ih⟩
  | test ht => exact hT ht
  | tests hs => exact inside_parenthesized (separated_inside hT hs)

theorem testForm_inside (hT : ∀ {ts t}, inner ts t → Inside ts) {t : Test}
    (h : TestForm inner ts t) : Inside ts := by
  cases h with
  | parens ht => exact inside_parenthesized (hT ht)
  | clause _ _ _ hp => exact inside_cons.2 ⟨not_boundary_word, inside_of_plain hp.plain⟩
  | negation ht => exact inside_cons.2 ⟨not_boundary_word, hT ht⟩
  | allOf hs | anyOf hs =>
    exact inside_cons.2 ⟨not_boundary_word, inside_parenthesized (separated_inside hT hs)⟩
  | generic _ ha => exact inside_cons.2 ⟨not_boundary_word, arguments_inside hT ha⟩

theorem testPhrase_inside {n : Nat} {t : Test} (h : TestPhrase n ts t) : Inside ts := by
  induction n generalizing ts t with
  | zero => exact h.elim
  | succ n ih => exact testForm_inside ih h

end Boundaries

section Commands

variable {At Before : Token → Prop} {T : List Token → Test → Prop}
variable {B : List Token → Block → Prop} {C : List Token → Chain → Prop}
variable {G : List Token → Command → Prop}

/-- At every word of the name behind a token that `At` holds of. `Before` is what is known of the
token before the phrase. -/
structure Sites (name : String) (K : Clause → Prop) (At Before : Token → Prop)
    (G : List Token → α → Prop) : Prop where
  site : ∀ {p pre more a}, Before p → At (pre.getLastD p) → G (pre ++ .word name :: more) a →
    Exchangeable name K (G · a) pre more

theorem sites_of_everywhere {G : List Token → α → Prop} (h : Everywhere name K G) :
    Sites name K At Before G :=
  ⟨fun _ _ hG => h.site hG⟩

theorem getLastD_mem (ts : List Token) (p : Token) : ts.getLastD p = p ∨ ts.getLastD p ∈ ts := by
  obtain rfl | ⟨us, t, rfl⟩ := List.eq_nil_or_concat ts
  · exact .inl rfl
  · exact .inr (by simp)

theorem sites_of_inside {G : List Token → α → Prop} (h : ∀ {ts a}, G ts a → Inside ts) :
    Sites name K Boundary (¬ Boundary ·) G := by
  refine ⟨fun {p pre more a} hp hat hG => ?_⟩
  obtain he | hm := getLastD_mem pre p
  · exact absurd (he ▸ hat) hp
  · exact absurd hat (h hG _ (List.mem_append_left _ hm))

theorem getLastD_append {p : Token} : (ts ++ us).getLastD p = us.getLastD (ts.getLastD p) := by
  cases us with
  | nil => simp
  | cons u us => simp [List.getLastD_eq_getLast?]

theorem sequence_sites (hG : Sites name K At Boundary G)
    (hends : ∀ {ts c}, G ts c → ∃ us t, ts = us ++ [t] ∧ Boundary t)
    (hstarts : ∀ {ts c}, G ts c → ∃ word us, ts = .word word :: us) :
    Sites name K At Boundary (Sequence G) := by
  refine ⟨fun {p pre more cs} hp hat h => ?_⟩
  generalize hts : pre ++ .word name :: more = ts at h
  induction h generalizing p pre with
  | nil => simp at hts
  | @cons ts us c cs hc hcs ih =>
    obtain ⟨mid, rfl, rfl⟩ | ⟨mid, rfl, rfl⟩ := append_eq_append_cons hts.symm
    · have hnext : NoTag us := by
        cases hcs with
        | nil => exact noTag_nil
        | cons hd _ =>
          obtain ⟨word, vs, rfl⟩ := hstarts hd
          exact noTag_word
      refine (hG.site hp hat hc).within [] hnext fun vs h => ?_
      have hcons := Sequence.cons h hcs
      exact hcons
    · obtain ⟨vs, t, rfl, ht⟩ := hends hc
      rw [getLastD_append] at hat
      refine (ih (p := t) ht (by simpa using hat) rfl).within (vs ++ [t]) noTag_nil fun ws h => ?_
      have hcons := Sequence.cons hc h
      simpa using hcons

theorem commandForm_ends (hB : ∀ {ts b}, B ts b → ∃ us, ts = braced us)
    (hC : ∀ {ts c}, C ts c → ts = [] ∨ ∃ us, ts = us ++ [.mark .closeBrace]) {c : Command}
    (h : CommandForm T B C ts c) : ∃ us t, ts = us ++ [t] ∧ Boundary t := by
  cases h with
  | clause | generic => exact ⟨_, _, rfl, .inl rfl⟩
  | genericBlock _ _ hb =>
    obtain ⟨us, rfl⟩ := hB hb
    exact ⟨_, _, (List.append_assoc _ _ _).symm, .inr (.inr rfl)⟩
  | ifTest _ hb hc =>
    obtain ⟨us, rfl⟩ := hB hb
    obtain rfl | ⟨vs, rfl⟩ := hC hc
    · rw [List.append_nil]
      exact ⟨_, _, (List.append_assoc _ _ _).symm, .inr (.inr rfl)⟩
    · exact ⟨_, _, (List.append_assoc _ _ _).symm, .inr (.inr rfl)⟩

def LinkPhrase (T : List Token → Test → Prop) (B : List Token → Block → Prop)
    (C : List Token → Chain → Prop) (xs : List Token) (x : Test × Block × Chain) : Prop :=
  ∃ ts us vs, xs = ts ++ us ++ vs ∧ T ts x.1 ∧ B us x.2.1 ∧ C vs x.2.2

theorem link_sites (hT : Sites name K At (¬ Boundary ·) T)
    (hB : Sites name K At (fun _ => True) B) (hC : Sites name K At (fun _ => True) C)
    (hbraced : ∀ {ts b}, B ts b → ∃ us, ts = braced us) (hlink : ∀ {ts c}, C ts c → NoTag ts) :
    Sites name K At (¬ Boundary ·) (LinkPhrase T B C) := by
  refine ⟨?_⟩
  rintro p pre more ⟨t, b, c⟩ hp hat ⟨ts, us, vs, h, ht, hb, hc⟩
  obtain ⟨mid, hmid, rfl⟩ | ⟨mid, rfl, rfl⟩ := append_eq_append_cons h.symm
  · obtain ⟨rest, rfl, rfl⟩ | ⟨rest, rfl, rfl⟩ := append_eq_append_cons hmid
    · have hnext : NoTag (us ++ vs) := by
        obtain ⟨ws, rfl⟩ := hbraced hb
        exact noTag_mark
      exact (hT.site hp hat ht).within [] hnext fun xs h => ⟨xs, us, vs, by simp, h, hb, hc⟩
    · rw [getLastD_append] at hat
      exact (hB.site trivial hat hb).within ts (hlink hc)
        fun xs h => ⟨ts, xs, vs, by simp, ht, h, hc⟩
  · rw [getLastD_append] at hat
    exact (hC.site trivial hat hc).within (ts ++ us) noTag_nil
      fun xs h => ⟨ts, us, xs, by simp, ht, hb, h⟩

theorem commandForm_sites
    (hhead : ∀ {p more c}, Boundary p → At p → CommandForm T B C (.word name :: more) c →
      Exchangeable name K (CommandForm T B C · c) [] more)
    (hA : Sites name K At (¬ Boundary ·) (ArgumentsPhrase T))
    (hB : Sites name K At (fun _ => True) B)
    (hL : Sites name K At (¬ Boundary ·) (LinkPhrase T B C))
    (hbraced : ∀ {ts b}, B ts b → ∃ us, ts = braced us) :
    Sites name K At Boundary (CommandForm T B C) := by
  refine ⟨fun {p pre more c} hp hat h => ?_⟩
  cases pre with
  | nil => exact hhead hp hat h
  | cons q pre =>
    rw [List.getLastD_cons] at hat
    generalize hts : q :: pre ++ .word name :: more = ts at h
    cases h with
    | @clause ts c k cl hc hl hx hcl =>
      have hpre := (List.cons.inj hts).2
      obtain ⟨mid, hmid, -⟩ | ⟨mid, -, hmid⟩ := append_eq_append_cons hpre.symm
      · exact absurd hmid (not_word_of_plain hcl.plain)
      · obtain ⟨-, ht, -⟩ | ⟨_, -, hnil⟩ := cons_eq_append_cons hmid
        · cases ht
        · simp at hnil
    | @ifTest ts us vs t b c ht hb hc =>
      obtain ⟨rfl, hpre⟩ := List.cons.inj hts
      refine (hL.site (a := (t, b, c)) not_boundary_word hat
        ⟨ts, us, vs, hpre, ht, hb, hc⟩).within [.word "if"] noTag_nil ?_
      rintro _ ⟨ts, us, vs, rfl, ht, hb, hc⟩
      simpa using CommandForm.ifTest ht hb hc
    | @generic ts word as hn ha =>
      obtain ⟨rfl, hpre⟩ := List.cons.inj hts
      obtain ⟨mid, rfl, rfl⟩ | ⟨mid, -, hmid⟩ := append_eq_append_cons hpre.symm
      · exact (hA.site not_boundary_word hat ha).within [.word word] noTag_mark
          fun _ h => by simpa using CommandForm.generic hn h
      · obtain ⟨-, ht, -⟩ | ⟨_, -, hnil⟩ := cons_eq_append_cons hmid
        · cases ht
        · simp at hnil
    | @genericBlock ts us word as b hn ha hb =>
      obtain ⟨rfl, hpre⟩ := List.cons.inj hts
      obtain ⟨mid, rfl, rfl⟩ | ⟨mid, rfl, rfl⟩ := append_eq_append_cons hpre.symm
      · have hnext : NoTag us := by
          obtain ⟨vs, rfl⟩ := hbraced hb
          exact noTag_mark
        exact (hA.site not_boundary_word hat ha).within [.word word] hnext
          fun _ h => by simpa using CommandForm.genericBlock hn h hb
      · rw [getLastD_append] at hat
        exact (hB.site trivial hat hb).within (.word word :: ts) noTag_nil
          fun _ h => by simpa using CommandForm.genericBlock hn ha h

theorem blockForm_sites (hG : Sites name K At Boundary (Sequence G)) :
    Sites name K At (fun _ => True) (BlockForm G) := by
  refine ⟨fun {p pre more b} _ hat h => ?_⟩
  generalize hts : pre ++ .word name :: more = ts at h
  obtain ⟨hs⟩ := h
  rw [braced, List.cons_append] at hts
  obtain ⟨-, ht, -⟩ | ⟨mid, rfl, hmid⟩ := cons_eq_append_cons hts.symm
  · cases ht
  · obtain ⟨rest, rfl, rfl⟩ | ⟨rest, rfl, hrest⟩ := append_eq_append_cons hmid
    · rw [List.getLastD_cons] at hat
      exact (hG.site (.inr (.inl rfl)) hat hs).within [.mark .openBrace] noTag_mark
        fun _ h => BlockForm.mk h
    · obtain ⟨-, ht, -⟩ | ⟨_, -, hnil⟩ := cons_eq_append_cons hrest
      · cases ht
      · simp at hnil

theorem chainForm_sites (helsif : name ≠ "elsif") (helse : name ≠ "else")
    (hB : Sites name K At (fun _ => True) B)
    (hL : Sites name K At (¬ Boundary ·) (LinkPhrase T B C)) :
    Sites name K At (fun _ => True) (ChainForm T B C) := by
  refine ⟨fun {p pre more c} _ hat h => ?_⟩
  generalize hts : pre ++ .word name :: more = ts at h
  cases h with
  | done => simp at hts
  | @elsif ts us vs t b c ht hb hc =>
    simp only [List.cons_append] at hts
    obtain ⟨-, hn, -⟩ | ⟨mid, rfl, hmid⟩ := cons_eq_append_cons hts.symm
    · exact absurd (Token.word.inj hn).symm helsif
    · rw [List.getLastD_cons] at hat
      refine (hL.site (a := (t, b, c)) not_boundary_word hat
        ⟨ts, us, vs, hmid.symm, ht, hb, hc⟩).within [.word "elsif"] noTag_nil ?_
      rintro _ ⟨ts, us, vs, rfl, ht, hb, hc⟩
      simpa using ChainForm.elsif ht hb hc
  | @otherwise ts b hb =>
    obtain ⟨-, hn, -⟩ | ⟨mid, rfl, rfl⟩ := cons_eq_append_cons hts.symm
    · exact absurd (Token.word.inj hn).symm helse
    · rw [List.getLastD_cons] at hat
      exact (hB.site trivial hat hb).within [.word "else"] noTag_nil
        fun _ h => by simpa using ChainForm.otherwise h

theorem chainPhrase_shape {n : Nat} {c : Chain} (h : ChainPhrase n ts c) :
    NoTag ts ∧ (ts = [] ∨ ∃ us, ts = us ++ [.mark .closeBrace]) := by
  induction n generalizing ts c with
  | zero =>
    obtain ⟨rfl, -⟩ := h
    exact ⟨noTag_nil, .inl rfl⟩
  | succ n ih =>
    cases h with
    | done => exact ⟨noTag_nil, .inl rfl⟩
    | elsif ht hb hc =>
      obtain ⟨us, rfl⟩ := Reads.blockPhrase_braced hb
      obtain ⟨-, rfl | ⟨vs, rfl⟩⟩ := ih hc
      · rw [List.append_nil]
        exact ⟨noTag_word, .inr ⟨_, (List.append_assoc _ _ _).symm⟩⟩
      · exact ⟨noTag_word, .inr ⟨_, (List.append_assoc _ _ _).symm⟩⟩
    | otherwise hb =>
      obtain ⟨us, rfl⟩ := Reads.blockPhrase_braced hb
      exact ⟨noTag_word, .inr ⟨.word "else" :: .mark .openBrace :: us, rfl⟩⟩

theorem block_chain_sites (helsif : name ≠ "elsif") (helse : name ≠ "else")
    (hhead : ∀ {n p more c}, Boundary p → At p → CommandPhrase n (.word name :: more) c →
      Exchangeable name K (CommandPhrase n · c) [] more)
    (hT : ∀ n, Sites name K At (¬ Boundary ·) (TestPhrase n))
    (hA : ∀ n, Sites name K At (¬ Boundary ·) (ArgumentsPhrase (TestPhrase n))) (n : Nat) :
    Sites name K At (fun _ => True) (BlockPhrase n)
      ∧ Sites name K At (fun _ => True) (ChainPhrase n)
      ∧ Sites name K At Boundary (Sequence (CommandPhrase n)) := by
  have commands {n : Nat} (hB : Sites name K At (fun _ => True) (BlockPhrase n))
      (hC : Sites name K At (fun _ => True) (ChainPhrase n)) :
      Sites name K At (¬ Boundary ·) (LinkPhrase (TestPhrase n) (BlockPhrase n) (ChainPhrase n))
        ∧ Sites name K At Boundary (Sequence (CommandPhrase n)) := by
    have hL : Sites name K At (¬ Boundary ·)
        (LinkPhrase (TestPhrase n) (BlockPhrase n) (ChainPhrase n)) :=
      link_sites (hT n) hB hC Reads.blockPhrase_braced fun h => (chainPhrase_shape h).1
    refine ⟨hL, sequence_sites (commandForm_sites hhead (hA n) hB hL Reads.blockPhrase_braced)
      (commandForm_ends Reads.blockPhrase_braced fun h => (chainPhrase_shape h).2) fun h => ?_⟩
    obtain ⟨word, us, rfl, -⟩ := commandForm_starts h
    exact ⟨word, us, rfl⟩
  induction n with
  | zero =>
    have hB : Sites name K At (fun _ => True) (BlockPhrase 0) := ⟨fun _ _ h => h.elim⟩
    have hC : Sites name K At (fun _ => True) (ChainPhrase 0) := by
      refine ⟨?_⟩
      rintro p pre more c - - ⟨h, -⟩
      simp at h
    exact ⟨hB, hC, (commands hB hC).2⟩
  | succ n ih =>
    obtain ⟨hB, hC, hS⟩ := ih
    have hB' : Sites name K At (fun _ => True) (BlockPhrase (n + 1)) := blockForm_sites hS
    have hC' : Sites name K At (fun _ => True) (ChainPhrase (n + 1)) :=
      chainForm_sites helsif helse hB (commands hB hC).1
    exact ⟨hB', hC', (commands hB' hC').2⟩

theorem scriptPhrase_site {n : Nat} {s : Script} (hS : Sites name K At Boundary
    (Sequence (CommandPhrase n))) (hat : At (pre.getLastD (.mark .semicolon)))
    (h : ScriptPhrase n (pre ++ .word name :: more) s) :
    Exchangeable name K (ScriptPhrase n · s) pre more := by
  generalize hts : pre ++ .word name :: more = ts at h
  obtain ⟨hs⟩ := h
  subst hts
  exact (hS.site (.inl rfl) hat hs).within [] noTag_nil
    fun _ h => ScriptPhrase.mk (by simpa using h)

/-- The keyword of a test, where no command begins. -/
theorem scriptPhrase_test {k : TestKeyword}
    (hk : ∀ inner, KeywordForm inner k = Leaf [] (TestClause k)) (helsif : k.word ≠ "elsif")
    (helse : k.word ≠ "else") {n : Nat} {s : Script}
    (hat : ¬ Boundary (pre.getLastD (.mark .semicolon)))
    (h : ScriptPhrase n (pre ++ .word k.word :: more) s) :
    Exchangeable k.word (fun c => ∃ t, TestClause k c t) (ScriptPhrase n · s) pre more := by
  have hT n : Everywhere k.word (fun c => ∃ t, TestClause k c t) (TestPhrase n) :=
    testPhrase_everywhere hk n
  have hS : Sites k.word (fun c => ∃ t, TestClause k c t) (¬ Boundary ·) Boundary
      (Sequence (CommandPhrase n)) :=
    (block_chain_sites helsif helse (fun hp hn _ => absurd hp hn)
      (fun n => sites_of_everywhere (hT n))
      (fun n => sites_of_everywhere (arguments_everywhere (hT n))) n).2.2
  exact scriptPhrase_site hS hat h

theorem scriptPhrase_command {k : CommandKeyword}
    (hk : ∀ T B C, CommandKeywordForm T B C k = CommandLeaf k) (helsif : k.word ≠ "elsif")
    (helse : k.word ≠ "else") {n : Nat} {s : Script}
    (hat : Boundary (pre.getLastD (.mark .semicolon)))
    (h : ScriptPhrase n (pre ++ .word k.word :: more) s) :
    Exchangeable k.word (fun cl => ∃ c, CommandClause k cl c) (ScriptPhrase n · s) pre more := by
  have arguments {n : Nat} {ts : List Token} {as : List Argument}
      (h : ArgumentsPhrase (TestPhrase n) ts as) : Inside ts := arguments_inside testPhrase_inside h
  have hS : Sites k.word (fun cl => ∃ c, CommandClause k cl c) Boundary Boundary
      (Sequence (CommandPhrase n)) := by
    refine (block_chain_sites helsif helse ?_ (fun n => sites_of_inside testPhrase_inside)
      (fun n => sites_of_inside arguments) n).2.2
    intro n p more c _ _ h
    obtain ⟨name, us, hu, hn⟩ := commandForm_iff.1 h
    cases hu
    rw [NamedCommandForm, CommandKeyword.ofWord?_word] at hn
    simp only [hk] at hn
    obtain ⟨us, cl, rfl, hp, hc, hl, hx⟩ := hn
    exact ⟨us, [.mark .semicolon], cl, rfl, noTag_mark, ⟨c, hc, hl, hx⟩, hp,
      fun _ hv => CommandForm.clause hc hl hx hv⟩
  exact scriptPhrase_site hS hat h

end Commands

end MailSieve.Phrase
