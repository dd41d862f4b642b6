import MailSieve.Proofs.Lexing.Inserted
import MailSieve.Proofs.Lexing.Stretch
import MailSieve.Proofs.Located.Nested

/-! The text of a node, read on its own.
A command is read again from the text of its location, and a test from that text behind `if`. For a
node was read from the tokens between the ends of its location, and these tokens are read alike
where nothing else stands around them. -/

namespace MailSieve

open Parse Phrase

namespace Cursor

variable {source : String} {c d : Cursor} {ts us : List Token}

theorem Reaches.passesOver (h : c.Reaches source d) (hp : c.Passes ts d) :
    ∃ ls, c.PassesOver ls d ∧ ls.map (·.token) = ts := by
  obtain ⟨ls, hls⟩ := h.passes
  obtain ⟨ms, hms, rfl⟩ := hp
  have hsame : ls = ms := lexemes_inj (List.append_cancel_right (hls.1.symm.trans hms))
  exact ⟨ls, hls, by rw [hsame]⟩

theorem Reaches.slice (h : c.Reaches source d) (hc : c.Stands source) (hp : c.Passes ts d)
    (hts : ts ≠ []) : ∃ mid rest, textBetween source c.here d.behind = String.ofList mid
      ∧ d.remaining = readingsFrom d.lastStop rest
      ∧ ∀ ds us, Follows rest ds → (rest = [] → Continued ts ∨ ds = []) → Lexed ds us →
        Lexed (mid ++ ds) (ts ++ us) := by
  obtain ⟨ls, ⟨hremaining, hlast⟩, rfl⟩ := h.passesOver hp
  obtain ⟨before, text, hsource, hread⟩ := hc.remaining
  have hls : ls ≠ [] := by
    rintro rfl
    exact hts rfl
  have hcurrent : c.current = ls.head hls := by
    cases ls with
    | nil => exact absurd rfl hls
    | cons l ls => exact Except.ok.inj (List.cons.inj hremaining).1
  rw [hread] at hremaining
  obtain ⟨lead, mid, rest, hcs, -, hstart, hstop, hmore, hlexed⟩ :=
    readingsFrom_stretch hls (readingsFrom_not_end hremaining) hremaining
  have hbegin : c.current.location.start = .after .origin (before ++ lead) := by
    rw [hcurrent, hstart, Position.after_append]
  have hend : d.lastStop = (Position.origin.after (before ++ lead)).after mid := by
    rw [hlast, List.getLast?_eq_some_getLast hls, Option.map_some, Option.getD_some, hstop,
      Position.after_append]
  refine ⟨mid, rest, ?_, ?_, fun ds us hf he hds => (hlexed ds us hf ?_ hds).1⟩
  · rw [here, behind, hbegin, hend]
    exact textBetween_after (by rw [hsource, hcs, List.append_assoc])
  · rw [hmore, hend, Position.after_append]
  · rintro ⟨v, hv⟩ hnil
    obtain hcontinued | rfl := he hnil
    · refine absurd ?_ (hcontinued (ls.dropLast.map (·.token)) v)
      rw [← hv, ← List.map_singleton, ← List.map_append, List.dropLast_append_getLast]
    · rfl

theorem Stands.continued (hc : c.Stands source) (hp : c.Passes ts d) (hall : Lexes source us)
    (hus : Continued us) (hd : d.remaining.length = 1) : Continued ts := by
  obtain ⟨ls, hls, rfl⟩ := hp
  obtain ⟨before, hbefore⟩ := hc.suffix
  obtain ⟨all, hread, htokens⟩ := hall
  rw [hls, hread] at hbefore
  obtain ⟨front, back, rfl, -, hback⟩ := List.map_eq_append_iff.1 hbefore.symm
  obtain ⟨mid, tail, rfl, hmid, htail⟩ := List.map_eq_append_iff.1 hback
  obtain rfl := lexemes_inj hmid
  have hlength : (tail.map (·.token)).length = [Token.endOfInput].length := by
    rw [← htail, List.length_map] at hd
    rw [List.length_map, hd, List.length_singleton]
  rw [List.map_append, List.map_append, ← List.append_assoc] at htokens
  obtain rfl := List.append_inj_left' htokens hlength
  intro vs v hvs
  exact hus (front.map (·.token) ++ vs) v (by rw [hvs, List.append_assoc])

end Cursor

namespace Script

variable {source : String} {limit m : Nat} {c d : Cursor} {s : Script}

theorem parse_command_text {x : Command} (hm : m ≤ limit) (hc : c.Stands source)
    (h : Parse.command m ⟨true, limit⟩ c = .ok (x, d)) :
    parse ⟨false, limit⟩ (textBetween source c.here d.behind) = .ok ⟨[x.erase], none⟩ := by
  have herased : Parse.command m ⟨false, limit⟩ c = .ok (x.erase, d) := by
    rw [Erases.command m limit c, h]
    rfl
  obtain ⟨ts, hp, hphrase⟩ := (Reads.command rfl m).sound hc.ended herased
  have hmarked := commandPhrase_marked hphrase
  have hts : ts ≠ [] := by
    obtain ⟨us, p, rfl⟩ := hmarked
    simp
  obtain ⟨hreaches, -⟩ := (Lays.command hm).run hc h
  obtain ⟨mid, rest, htext, -, hlexed⟩ := hreaches.slice hc hp hts
  have hall := hlexed [] [] nofun (fun _ => .inr rfl) (.stop rfl)
  rw [List.append_nil] at hall
  have hscript : ScriptPhrase m (ts ++ []) ⟨[x.erase], none⟩ := .mk (.cons hphrase .nil)
  rw [htext]
  refine (parse_iff rfl).2 ⟨ts ++ [], lexes_iff.2 ?_, scriptPhrase_mono hm hscript⟩
  rwa [String.toList_ofList]

/-- A test is read again as that of a conditional with an empty block. -/
theorem parse_test_text {t : Test} {us : List Token} (hall : Lexes source us) (hus : Continued us)
    (hm : m ≤ limit) (hc : c.Stands source)
    (h : Parse.test m ⟨true, limit⟩ c = .ok (t, d)) :
    parse ⟨false, limit⟩ ("if " ++ textBetween source c.here d.behind ++ " {}")
      = .ok ⟨[.ifTest t.erase (.mk [] none) .done none], none⟩ := by
  have herased : Parse.test m ⟨false, limit⟩ c = .ok (t.erase, d) := by
    rw [Erases.test m limit c, h]
    rfl
  obtain ⟨ts, hp, hphrase⟩ := (Reads.test rfl m).sound hc.ended herased
  obtain ⟨hreaches, -⟩ := (Lays.test hm).run hc h
  obtain ⟨mid, rest, htext, hrest, hlexed⟩ := hreaches.slice hc hp (testPhrase_ne_nil hphrase)
  have hcontinued : rest = [] → Continued ts := by
    rintro rfl
    refine hc.continued hp hall hus ?_
    rw [hrest, readingsFrom_atEnd rfl, List.length_singleton]
  have hbounded (cs : List Char) : Bounded (' ' :: cs) := by
    rintro _ ⟨⟩
    decide
  have hbraces : Lexed [' ', '{', '}'] [.mark .openBrace, .mark .closeBrace] := by
    have hclose : Lexed ['}'] [.mark .closeBrace] :=
      (Lexed.stop rfl).spells (spells_mark .closeBrace) nofun
    exact (hclose.spells (spells_mark .openBrace) nofun).blank rfl
  have htest := hlexed _ _ (.of_bounded (hbounded _)) (fun hnil => .inl (hcontinued hnil)) hbraces
  have hif : isIdentifier "if" = true := by decide
  have hword : Spells "if".toList (.word "if") (' ' :: (mid ++ [' ', '{', '}'])) :=
    spells_word hif (hbounded _)
  have hlexed := (htest.blank rfl).spells hword nofun
  cases m with
  | zero => exact hphrase.elim
  | succ m =>
    have hblock : BlockPhrase (m + 1) (braced []) (.mk [] none) := .mk .nil
    have hcommand : CommandPhrase (m + 1) (.word "if" :: ts ++ braced [] ++ [])
        (.ifTest t.erase (.mk [] none) .done none) := .ifTest hphrase hblock .done
    refine (parse_iff rfl).2 ⟨_, lexes_iff.2 ?_, scriptPhrase_mono hm (.mk (.cons hcommand .nil))⟩
    have hsource : ("if " ++ textBetween source c.here d.behind ++ " {}").toList
        = "if".toList ++ ' ' :: (mid ++ [' ', '{', '}']) := by
      simp [htext]
    rw [hsource]
    simpa [braced] using hlexed

/-- Every command and every test of a script is what the text of its location denotes. -/
theorem parse_slices (h : parse ⟨true, limit⟩ source = .ok s) :
    (∀ c, (Node.script s).Holds (.command c) → ∃ l, c.location = some l
      ∧ parse ⟨false, limit⟩ (textBetween source l.start.offset l.stop.offset)
        = .ok ⟨[c.erase], none⟩)
    ∧ ∀ t, (Node.script s).Holds (.test t) → ∃ l, t.location = some l
      ∧ parse ⟨false, limit⟩ ("if " ++ textBetween source l.start.offset l.stop.offset ++ " {}")
        = .ok ⟨[.ifTest t.erase (.mk [] none) .done none], none⟩ := by
  obtain ⟨-, hlaid⟩ := parse_laid h
  have herased : parse ⟨false, limit⟩ source = .ok s.erase := by
    rw [parse_erase, h]
    rfl
  obtain ⟨us, hus, hs⟩ := (parse_iff rfl).1 herased
  refine ⟨fun x hx => ?_, fun t ht => ?_⟩
  · obtain ⟨m, c, d, hm, hc, hrun, hlocation⟩ := (hlaid _ hx).2
    exact ⟨_, hlocation, parse_command_text hm hc hrun⟩
  · obtain ⟨m, c, d, hm, hc, hrun, hlocation⟩ := (hlaid _ ht).2
    exact ⟨_, hlocation, parse_test_text hus (scriptPhrase_continued hs) hm hc hrun⟩

/-- The location of a test in parentheses is that of the test alone. -/
theorem parse_slices_parenthesized :
    parse ⟨false, 2⟩ (textBetween "if(true){stop;}" 9 14) = .ok ⟨[.stop none], none⟩
      ∧ parse ⟨false, 2⟩ ("if " ++ textBetween "if(true){stop;}" 3 7 ++ " {}")
        = .ok ⟨[.ifTest (.always none) (.mk [] none) .done none], none⟩ := by
  let t : Test := .always (some ⟨⟨3, 1, 4⟩, ⟨7, 1, 8⟩⟩)
  let x : Command := .stop (some ⟨⟨9, 1, 10⟩, ⟨14, 1, 15⟩⟩)
  let b : Block := .mk [x] (some ⟨⟨8, 1, 9⟩, ⟨15, 1, 16⟩⟩)
  let y : Command := .ifTest t b .done (some ⟨⟨0, 1, 1⟩, ⟨15, 1, 16⟩⟩)
  let s : Script := ⟨[y], some ⟨⟨0, 1, 1⟩, ⟨15, 1, 16⟩⟩⟩
  have h : parse ⟨true, 2⟩ "if(true){stop;}" = .ok s := by decide +kernel
  have hy : Node.command y ∈ (Node.script s).children := List.mem_cons_self
  have ht : Node.test t ∈ (Node.command y).children := List.mem_cons_self
  have hb : Node.block b ∈ (Node.command y).children := List.mem_cons_of_mem _ List.mem_cons_self
  have hx : Node.command x ∈ (Node.block b).children := List.mem_cons_self
  obtain ⟨hcommands, htests⟩ := parse_slices h
  obtain ⟨_, ⟨⟩, hstop⟩ := hcommands x (.head hy (.head hb (.head hx .refl)))
  obtain ⟨_, ⟨⟩, htrue⟩ := htests t (.head hy (.head ht .refl))
  exact ⟨hstop, htrue⟩

end Script

end MailSieve
