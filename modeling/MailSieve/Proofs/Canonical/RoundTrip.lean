import MailSieve.Proofs.Canonical.Legible
import MailSieve.Proofs.Canonical.Reread
import MailSieve.Proofs.Script.Fixed

/-! Writing a script and reading it again.
A checked script is read back from its canonical text if and only if its tags may stand together,
its lists of tests stand last, and its nesting is within the limit; what is read is what is kept of
it. A script that was read is such a script, and only its lists of one string are changed. -/

namespace MailSieve

open Phrase Canonical

section Grammatical

theorem checked_grammatical : TreeLaw.checked.Grammatical Token.Spelled where
  location := trivial
  number _ := trivial
  strings := id
  capabilities := id
  tests := id
  testName hs hn := ⟨hs, hn⟩
  commandName hs hn := ⟨hs, hn⟩
  tagName := id
  arguments _ := trivial
  options _ := trivial
  vacation _ := trivial
  date _ := trivial
  duplicate _ := trivial

theorem readable_grammatical : TreeLaw.readable.Grammatical Token.Spelled where
  location := trivial
  number _ := trivial
  strings _ := trivial
  capabilities _ := trivial
  tests _ := trivial
  testName _ _ := trivial
  commandName _ _ := trivial
  tagName _ := trivial
  arguments := id
  options := id
  vacation := id
  date := id
  duplicate := id

theorem bare_grammatical : TreeLaw.bare.Grammatical Token.Spelled where
  location := rfl
  number _ := trivial
  strings _ := trivial
  capabilities _ := trivial
  tests _ := trivial
  testName _ _ := trivial
  commandName _ _ := trivial
  tagName _ := trivial
  arguments _ := trivial
  options _ := trivial
  vacation _ := trivial
  date _ := trivial
  duplicate _ := trivial

theorem divided_grammatical : TreeLaw.divided.Grammatical Token.Spelled where
  location := trivial
  number := id
  strings _ := trivial
  capabilities _ := trivial
  tests _ := trivial
  testName _ _ := trivial
  commandName _ _ := trivial
  tagName _ := trivial
  arguments _ := trivial
  options _ := trivial
  vacation _ := trivial
  date _ := trivial
  duplicate _ := trivial

end Grammatical

variable {o : ParseOptions} {l : Layout} {s u : Script} {source : String} {limit : Nat}

/-- Every law of what texts denote holds of a script that was read. -/
theorem Script.parse_obeys {L : TreeLaw} (hL : L.Grammatical Token.Spelled)
    (ho : o.locations = false) (h : Script.parse o source = .ok s) :
    s.Obeys L ∧ s.depth ≤ o.maxDepth := by
  obtain ⟨ts, hts, hs⟩ := (Script.parse_iff ho).1 h
  exact scriptPhrase_obeys hL (lexes_iff.1 hts).spelled hs

theorem Script.parse_generate_iff (ho : o.locations = false) (hc : s.Obeys .checked)
    (hl : l.Plain) : Script.parse o (s.generate l) = .ok u
      ↔ (s.Obeys .readable ∧ s.depth ≤ o.maxDepth) ∧ u = s.erase.reduced.norm := by
  rw [Script.parse_iff ho]
  constructor
  · rintro ⟨ts, hts, hu⟩
    rw [hts.unique (lexes_generate hc hl)] at hu
    obtain ⟨hr, hd⟩ := script_readBack hc hu
    exact ⟨⟨hr, hd⟩, scriptPhrase_unique hu (scriptPhrase_tokens hc hr hd)⟩
  · rintro ⟨⟨hr, hd⟩, rfl⟩
    exact ⟨_, lexes_generate hc hl, scriptPhrase_tokens hc hr hd⟩

/-- Which checked scripts can be written and read again, and what is read then. -/
theorem Script.rereads_iff (s : Script) (l : Layout) (limit : Nat) (hc : s.Obeys .checked)
    (hl : l.Plain) :
    ((∃ u, Script.parse ⟨false, limit⟩ (s.generate l) = .ok u)
        ↔ s.Obeys .readable ∧ s.depth ≤ limit)
      ∧ ∀ u, Script.parse ⟨false, limit⟩ (s.generate l) = .ok u → u = s.erase.reduced.norm := by
  have h u := Script.parse_generate_iff (o := ⟨false, limit⟩) (u := u) rfl hc hl
  refine ⟨⟨?_, fun hr => ⟨_, (h _).2 ⟨hr, rfl⟩⟩⟩, fun u hu => ((h u).1 hu).2⟩
  rintro ⟨u, hu⟩
  exact ((h u).1 hu).1

/-- Three, of which a thousand is no divisor, is written without its quantifier. -/
theorem Script.rereads_quantified :
    ∃ u, Script.parse ⟨false, 1⟩ (Script.generate
        ⟨[.ifTest (.size ⟨true, ⟨3, some .kilo, none⟩, none⟩)
          (.mk [.stop (some ⟨.origin, .origin⟩)] none) .done none], none⟩ .standard) = .ok u
      ∧ u = ⟨[.ifTest (.size ⟨true, ⟨3, none, none⟩, none⟩) (.mk [.stop none] none) .done none],
        none⟩ := by
  have h := Script.rereads_iff
    ⟨[.ifTest (.size ⟨true, ⟨3, some .kilo, none⟩, none⟩)
      (.mk [.stop (some ⟨.origin, .origin⟩)] none) .done none], none⟩ .standard 1
    ⟨⟨⟨⟨⟨trivial, trivial⟩, trivial⟩, ⟨⟨trivial, trivial⟩, trivial⟩, trivial, trivial⟩, trivial⟩,
      trivial⟩ Layout.standard_plain
  obtain ⟨u, hu⟩ := h.1.2 ⟨⟨⟨⟨⟨⟨trivial, trivial⟩, trivial⟩, ⟨⟨trivial, trivial⟩, trivial⟩, trivial,
    trivial⟩, trivial⟩, trivial⟩, by decide⟩
  exact ⟨u, hu, h.2 u hu⟩

/-- A script that was read is read again from its canonical text, within the same limit. -/
theorem Script.parse_generate_of_parse (source : String) (limit : Nat) (l : Layout) (s : Script)
    (hl : l.Plain) (h : Script.parse ⟨false, limit⟩ source = .ok s) :
    Script.parse ⟨false, limit⟩ (s.generate l) = .ok s.norm := by
  obtain ⟨hc, hd⟩ := Script.parse_obeys checked_grammatical rfl h
  have hr := (Script.parse_obeys readable_grammatical rfl h).1
  have hb := (Script.parse_obeys bare_grammatical rfl h).1
  have hv := (Script.parse_obeys divided_grammatical rfl h).1
  refine (Script.parse_generate_iff rfl hc hl).2 ⟨⟨hr, hd⟩, ?_⟩
  rw [Script.erase_eq hb, Script.reduced_eq hv]

/-- Brackets around one string are not written again. -/
theorem Script.parse_generate_bracketed :
    Script.parse ⟨false, 1⟩ (Script.generate
        ⟨[.generic "foo" [.strings ⟨[⟨"a", false, none⟩], none⟩] none], none⟩ .standard)
      = .ok ⟨[.generic "foo" [.string ⟨"a", false, none⟩] none], none⟩ := by
  refine Script.parse_generate_of_parse "foo [\"a\"];" 1 .standard
    ⟨[.generic "foo" [.strings ⟨[⟨"a", false, none⟩], none⟩] none], none⟩
    Layout.standard_plain ((Script.parse_iff rfl).2 ⟨[.word "foo", .mark .openBracket,
      .string "a" false, .mark .closeBracket, .mark .semicolon], ?_, ?_⟩)
  · rw [lexes_iff]
    exact .step rfl (by decide) (.step rfl (by decide) (.step rfl (by decide)
      (.step rfl (by decide) (.step rfl (by decide) (.stop rfl)))))
  · have ha : PlainArgument [.mark .openBracket, .string "a" false, .mark .closeBracket]
        (.strings ⟨[⟨"a", false, none⟩], none⟩) := .strings (.mk (.single (.mk "a" false)))
    have hargs : ArgumentsPhrase (TestPhrase 1) _ _ := .cons ha .nil
    have hc : CommandPhrase 1 _ (.generic "foo" _ none) := CommandForm.generic rfl hargs
    exact .mk (.cons hc .nil)

end MailSieve
