import MailSieve.Proofs.Lexing.Order
import MailSieve.Proofs.Lexing.Prefix

/-! Stretches of a source.
The text from the start of one token to the end of another is read as the same tokens on its own,
and also where something else follows that does not go on with the last of them. -/

namespace MailSieve

variable {p : Position} {cs : List Char} {ls : List Lexeme} {more : List Reading}

theorem readingsFrom_stretch (hls : ls ≠ []) (hend : ∀ l ∈ ls, l.token ≠ .endOfInput)
    (h : readingsFrom p cs = ls.map .ok ++ more) :
    ∃ lead mid rest, cs = lead ++ (mid ++ rest) ∧ mid ≠ []
      ∧ (ls.head hls).location.start = p.after lead
      ∧ (ls.getLast hls).location.stop = (p.after lead).after mid
      ∧ more = readingsFrom ((p.after lead).after mid) rest
      ∧ ∀ ds us, Follows rest ds → (ls.getLast hls).token.Ends rest ds → Lexed ds us →
        Lexed (mid ++ ds) (ls.map (·.token) ++ us)
          ∧ Lexed (lead ++ (mid ++ ds)) (ls.map (·.token) ++ us) := by
  induction ls generalizing p cs with
  | nil => exact absurd rfl hls
  | cons l ls ih =>
    obtain ⟨hne, hend⟩ := List.forall_mem_cons.1 hend
    obtain ⟨hout, hlocation⟩ := readingsFrom_head h
    have hrest := readingsFrom_tail h hne
    have htext := scan_text_ne_nil hout hne
    -- The first token is read alike with and without the trivia before it.
    have hfirst {ds : List Char} {us : List Token} (hf : Follows (scan cs).rest ds)
        (he : l.token.Ends (scan cs).rest ds) (hds : Lexed ds us) :
        Lexed ((scan cs).text ++ ds) (l.token :: us)
          ∧ Lexed ((scan cs).before ++ ((scan cs).text ++ ds)) (l.token :: us) := by
      have halone := scan_text_follow hout hne hf he
      have hbehind := scan_follow hout hne hf he
      constructor
      · exact .step (by rw [halone]) hne (by rwa [halone])
      · exact .step (by rw [hbehind]; exact hout) hne (by rwa [hbehind])
    cases ls with
    | nil =>
      have hstop : l.location.stop = (p.after (scan cs).before).after (scan cs).text :=
        congrArg Location.stop hlocation
      exact ⟨(scan cs).before, (scan cs).text, (scan cs).rest, (scan_append cs).symm, htext,
        congrArg Location.start hlocation, hstop, hstop ▸ hrest.symm, fun _ _ => hfirst⟩
    | cons m ls =>
      obtain ⟨lead, mid, rest, hcs, hmid, -, hstop, hlast, hlexed⟩ :=
        ih (List.cons_ne_nil m ls) hend hrest
      have hafter : (p.after (scan cs).before).after ((scan cs).text ++ (lead ++ mid))
          = (l.location.stop.after lead).after mid := by
        rw [hlocation, Position.after_append, Position.after_append]
        rfl
      refine ⟨(scan cs).before, (scan cs).text ++ (lead ++ mid), rest, ?_, ?_, ?_, ?_, ?_,
        fun ds us hf he hds => ?_⟩
      · rw [List.append_assoc, List.append_assoc, ← hcs]
        exact (scan_append cs).symm
      · exact List.append_ne_nil_of_left_ne_nil htext _
      · exact congrArg Location.start hlocation
      · rw [hafter, ← hstop]
        rfl
      · rw [hafter, ← hlast]
      · obtain ⟨-, hds⟩ := hlexed ds us hf he hds
        rw [← List.append_assoc] at hcs hds
        have hgap : lead ++ mid ≠ [] := List.append_ne_nil_of_right_ne_nil _ hmid
        have hfollows : Follows (scan cs).rest (lead ++ mid ++ ds) := hcs ▸ .append hgap
        have hends : l.token.Ends (scan cs).rest (lead ++ mid ++ ds) := by
          intro _ hnil
          rw [hcs] at hnil
          exact absurd (List.append_eq_nil_iff.1 hnil).1 hgap
        rw [List.append_assoc (scan cs).text]
        exact hfirst hfollows hends hds

end MailSieve
