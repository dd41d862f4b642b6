import MailSieve.Proofs.Canonical.RoundTrip
import MailSieve.Proofs.Located.Recorded
import MailSieve.Proofs.Located.Script
import MailSieve.Proofs.Script.Erased
import MailSieve.Script.Equality

/-! What every script that was read satisfies.
Reading without locations gives only checked, readable trees within the limit, whose quantifiers
divide their numbers. None of these laws looks at locations, so they hold of trees with locations
too. -/

namespace MailSieve

theorem checked_overlooks : TreeLaw.checked.Overlooks where
  location _ := trivial
  number _ := Iff.rfl
  strings _ := not_congr List.map_eq_nil_iff
  tests _ := not_congr List.map_eq_nil_iff
  arguments _ := Iff.rfl
  options _ := Iff.rfl
  vacation _ := Iff.rfl
  date _ := Iff.rfl
  duplicate _ := Iff.rfl

theorem readable_overlooks : TreeLaw.readable.Overlooks where
  location _ := trivial
  number _ := Iff.rfl
  strings _ := Iff.rfl
  tests _ := Iff.rfl
  arguments as := by
    simp only [TreeLaw.readable, ← List.map_dropLast, List.forall_mem_map, Erases.isTests_erase]
  options _ := Iff.rfl
  vacation c := by simp [TreeLaw.readable, VacationCommand.erase]
  date t := by simp [TreeLaw.readable, DateTest.erase]
  duplicate t := by simp [TreeLaw.readable, DuplicateTest.erase]

theorem divided_overlooks : TreeLaw.divided.Overlooks where
  location _ := trivial
  number _ := Iff.rfl
  strings _ := Iff.rfl
  tests _ := Iff.rfl
  arguments _ := Iff.rfl
  options _ := Iff.rfl
  vacation _ := Iff.rfl
  date _ := Iff.rfl
  duplicate _ := Iff.rfl

namespace Script

variable {o : ParseOptions} {source : String} {s : Script}

theorem parse_erase_ok (h : parse o source = .ok s) :
    parse ⟨false, o.maxDepth⟩ source = .ok s.erase := by
  obtain ⟨locations, limit⟩ := o
  cases locations with
  | false =>
    rw [erase_eq (parse_obeys bare_grammatical rfl h).1]
    exact h
  | true =>
    rw [parse_erase, h]
    rfl

theorem parse_depth_le (h : parse o source = .ok s) : s.depth ≤ o.maxDepth := by
  rw [← s.depth_erase]
  exact (parse_obeys checked_grammatical rfl (parse_erase_ok h)).2

/-- A law of what texts denote that overlooks locations holds of trees with and without them. -/
theorem obeys_of_parse {L : TreeLaw} (hL : L.Grammatical Token.Spelled) (hv : L.Overlooks)
    (h : parse o source = .ok s) : s.Obeys L :=
  (s.obeys_erase hv).1 (parse_obeys hL rfl (parse_erase_ok h)).1

/-- Whatever is read is well formed, nested within the limit, and has locations exactly if they
were asked for. -/
theorem parse_wellFormed (o : ParseOptions) (source : String) (s : Script)
    (h : parse o source = .ok s) :
    s.Obeys .checked ∧ s.Obeys .readable ∧ s.Obeys .divided ∧ s.depth ≤ o.maxDepth
      ∧ s.Obeys (.recorded o.locations) :=
  ⟨obeys_of_parse checked_grammatical checked_overlooks h,
    obeys_of_parse readable_grammatical readable_overlooks h,
    obeys_of_parse divided_grammatical divided_overlooks h, parse_depth_le h, parse_recorded h⟩

/-- A test and a block stand side by side, each one level deep. -/
theorem parse_wellFormed_conditional :
    let s : Script := ⟨[.ifTest (.always (some ⟨⟨3, 1, 4⟩, ⟨7, 1, 8⟩⟩))
        (.mk [.keep ⟨none, some ⟨⟨8, 1, 9⟩, ⟨13, 1, 14⟩⟩⟩] (some ⟨⟨7, 1, 8⟩, ⟨14, 1, 15⟩⟩)) .done
        (some ⟨⟨0, 1, 1⟩, ⟨14, 1, 15⟩⟩)], some ⟨⟨0, 1, 1⟩, ⟨14, 1, 15⟩⟩⟩
    parse ⟨true, 1⟩ "if true{keep;}" = .ok s ∧ s.Obeys .checked ∧ s.Obeys .readable
      ∧ s.Obeys .divided ∧ s.depth ≤ 1 ∧ s.Obeys (.recorded true) := by
  intro s
  have h : parse ⟨true, 1⟩ "if true{keep;}" = .ok s := by decide +kernel
  exact ⟨h, parse_wellFormed ⟨true, 1⟩ "if true{keep;}" s h⟩

end Script

end MailSieve
