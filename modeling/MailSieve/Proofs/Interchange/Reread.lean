import MailSieve.Proofs.Canonical.RoundTrip
import MailSieve.Proofs.Interchange.Checked
import MailSieve.Proofs.Located.Script

/-! Reading the canonical text of a tree out of JSON.
Reading a tree from JSON applies every check of hand-built nodes. Two rules of the parser are not
among them: that tags of one group exclude each other, and that tests stand last among their
arguments. So a tree out of JSON is read back from its text exactly if it keeps these two. -/

namespace MailSieve

variable {o : ParseOptions} {l : Layout} {s : Script}

theorem Script.exists_parse_generate_iff (hc : s.Obeys .checked) (hl : l.Plain) :
    (∃ u, Script.parse o (s.generate l) = .ok u)
      ↔ s.Obeys .readable ∧ s.depth ≤ o.maxDepth := by
  rw [exists_parse_iff]
  constructor
  · intro h
    obtain ⟨u, hu⟩ := h
    exact ((parse_generate_iff rfl hc hl).1 hu).1
  · intro h
    exact ⟨_, (parse_generate_iff rfl hc hl).2 ⟨h, rfl⟩⟩

namespace Interchange

/-- Within the limit, a tree out of JSON is read back if and only if its tags may stand together
and its lists of tests stand last. -/
theorem rereads_decoded_iff (j : Json) (s : Script) (l : Layout) (o : ParseOptions)
    (h : decodeScript j = .ok s) (hl : l.Plain) (hd : s.depth ≤ o.maxDepth) :
    (∃ u, Script.parse o (s.generate l) = .ok u) ↔ s.Obeys .readable := by
  rw [Script.exists_parse_generate_iff (decodeScript_checked h) hl]
  exact and_iff_left hd

/-- A vacation every seven days. -/
theorem rereads_decoded_vacation :
    ∃ s, decodeScript (.object [("commands", .array [.object [("type", .string "Vacation"),
        ("reason", .object [("value", .string "away")]),
        ("days", .object [("value", .natural 7)])]])]) = .ok s
      ∧ ∃ u, Script.parse .standard (s.generate .standard) = .ok u := by
  let s : Script := ⟨[.vacation ⟨⟨"away", false, none⟩, some ⟨7, none, none⟩, none, none, none,
    none, false, none, none⟩], none⟩
  have hr : s.Obeys .readable :=
    ⟨⟨(VacationCommand.obeys_readable _).2 (by simp), trivial⟩, trivial⟩
  have hread {j : Json} (hj : decodeScript j = .ok s) :
      ∃ s, decodeScript j = .ok s ∧ ∃ u, Script.parse .standard (s.generate .standard) = .ok u :=
    ⟨s, hj, (rereads_decoded_iff j s .standard .standard hj Layout.standard_plain (by decide)).2 hr⟩
  exact hread rfl

/-- Of a match type and a relational match the parser takes only one. -/
theorem not_rereads_decoded_header :
    ∃ s, decodeScript (.object [("commands", .array [.object [("type", .string "If"),
        ("test", .object [("type", .string "Header"),
          ("options", .object [("match_type", .string "is"),
            ("relational", .object [("kind", .string "count"), ("op", .string "ge")])]),
          ("headers", .object [("values", .array [.object [("value", .string "a")]])]),
          ("keys", .object [("values", .array [.object [("value", .string "1")]])])]),
        ("consequent", .object [("commands", .array [])])]])]) = .ok s
      ∧ s.depth ≤ ParseOptions.standard.maxDepth
      ∧ ¬ ∃ u, Script.parse .standard (s.generate .standard) = .ok u := by
  let s : Script := ⟨[.ifTest (.header ⟨⟨some .is, some ⟨.count, .ge⟩, none⟩,
    ⟨[⟨"a", false, none⟩], none⟩, ⟨[⟨"1", false, none⟩], none⟩, none⟩) (.mk [] none) .done none],
    none⟩
  have hr : ¬ s.Obeys .readable := by
    intro h
    obtain ⟨⟨⟨ht, -⟩, -⟩, -⟩ := h
    exact (HeaderTest.obeys_readable _).1 ht ⟨rfl, rfl⟩
  have hread {j : Json} (hj : decodeScript j = .ok s) :
      ∃ s, decodeScript j = .ok s ∧ s.depth ≤ ParseOptions.standard.maxDepth
        ∧ ¬ ∃ u, Script.parse .standard (s.generate .standard) = .ok u := by
    refine ⟨s, hj, by decide, ?_⟩
    rw [Script.exists_parse_generate_iff (decodeScript_checked hj) Layout.standard_plain]
    exact fun h => hr h.1
  exact hread rfl

end Interchange

end MailSieve
