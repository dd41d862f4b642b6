import MailSieve.Proofs.Alternatives.Grammar

/-! Where the commands of a script get stuck.
From every approach that is nearer than the limit there is one place where the commands end without
a result, unless the open token is one of the alternatives noted there. Behind such a token the
reading goes on, and at the end of the input it is done. -/

namespace MailSieve

open Parse Expected

namespace Parse

/-- The commands up to the end of the input, at most as many as there are turns. -/
def commands (n : Nat) (turns : List Reading) : Parse (List Command) :=
  collect (fun _ => false) (commandOrEnd (command n)) turns

variable {o : ParseOptions} {n : Nat} {c : Cursor} {turns : List Reading}

theorem commandOrEnd_run : commandOrEnd (command n) o c
    = (if c.current.token = .endOfInput then Pure.pure none
      else command n >>= fun a => Pure.pure (some a) : Parse (Option Command))
        o (c.note .endOfInput) := by
  rw [← c.current_note .endOfInput]
  rfl

theorem commands_end (h : c.current.token = .endOfInput) (hturns : turns ≠ []) :
    commands n turns o c = .ok ([], c.note .endOfInput) := by
  obtain ⟨t, turns, rfl⟩ := List.exists_cons_of_ne_nil hturns
  rw [commands, collect, bind_run, commandOrEnd_run, if_pos h]
  rfl

theorem commands_more (h : c.current.token ≠ .endOfInput) (hturns : turns ≠ []) :
    commands n turns o c = (command n >>= fun a => commands n turns.tail >>= fun as =>
      Pure.pure (a :: as)) o (c.note .endOfInput) := by
  obtain ⟨t, turns, rfl⟩ := List.exists_cons_of_ne_nil hturns
  rw [commands, collect, bind_run, commandOrEnd_run, if_neg h, bind_run, bind_run]
  cases command n o (c.note .endOfInput) <;> rfl

end Parse

/-- From `A` on the commands end at `B` for the reason `r`. They go on where an alternative noted
there stands at the open token; if that is the end of the input they are done. -/
structure Stuck (o : ParseOptions) (n : Nat) (A B : Approach) (r : Refusal) : Prop where
  opens : ∀ {l}, B.Open l → A.Open l
  missing : r = .missing → B.before = [] ∧ Rounded B.noted
  run : ∀ {l tail c turns}, A.before.length < turns.length → A.Meets l tail c → B.Open l →
    (Outcome.mk B (.error r)).Is l tail (commands n turns o c)
  halts : ∀ {l turns}, A.before.length < turns.length → A.Open l → ¬ B.Open l →
    l.token ≠ .endOfInput → Halts o (commands n turns) A l
  done : ∀ {l tail c turns}, A.before.length < turns.length → A.Meets l tail c → ¬ B.Open l →
    l.token = .endOfInput → ∃ a, commands n turns o c = .ok a

namespace Stuck

variable {o : ParseOptions} {n : Nat} {A B C : Approach} {r : Refusal} {l : Lexeme} {c : Cursor}
variable {tail turns : List Reading} {a : Command}

theorem turns_ne_nil (h : A.before.length < turns.length) : turns ≠ [] :=
  List.length_pos_iff.1 (Nat.zero_lt_of_lt h)

theorem first (hend : .endOfInput ∉ A.before) (hl : A.before = [] → l.token ≠ .endOfInput)
    (hturns : A.before.length < turns.length) (hc : A.Meets l tail c) :
    commands n turns o c = (command n >>= fun a => commands n turns.tail >>= fun as =>
      Pure.pure (a :: as)) o (c.noteAll [.endOfInput]) := by
  refine commands_more (fun h => ?_) (turns_ne_nil hturns)
  cases hA : A.before with
  | nil => exact hl hA ((hc.here hA).1 ▸ h)
  | cons t ts =>
    rw [(hc.next hA).1] at h
    exact hend (by rw [hA, h]; exact List.mem_cons_self)

theorem end_noted (hl : ¬ B.Open l) (he : l.token = .endOfInput) :
    B.before = [] ∧ endOfInput ∈ B.noted := by
  obtain ⟨hB, e, hmem, hcovers⟩ := Approach.not_open.1 hl
  rw [he, covers_endOfInput] at hcovers
  exact ⟨hB, hcovers ▸ hmem⟩

theorem not_end {R : Command → List Expected → Prop} {M : Command → Prop} {w : Outcome Command}
    (hw : w.Fits (A.noteAll [.endOfInput]) R M) (hl : w.upTo.Open l) (hA : A.before = []) :
    l.token ≠ .endOfInput := fun he =>
  hl (hw.leads.nil hA) ⟨.endOfInput, hw.leads.noted hA (mem_noteAll.2 (.inr (by simp))),
    endOfInput_covers.2 he⟩

theorem of_refused (hw : (Outcome.mk B (.error r : Except Refusal Command)).Fits
      (A.noteAll [.endOfInput]) (fun _ => Loose) Always)
    (hof : Outcome.Of o (Parse.command n) (A.noteAll [.endOfInput]) ⟨B, .error r⟩)
    (hend : .endOfInput ∉ A.before) : Stuck o n A B r where
  opens hB := (Approach.open_noteAll.1 (hw.leads.open hB)).1
  missing hr := hw.missing (by rw [hr])
  run hturns hc hl := by
    rw [first hend (not_end hw hl) hturns hc]
    exact hof.stuck.run hc.noteAll hl
  halts hturns hA hl hne m more c hc := by
    rw [first hend (fun _ => hne) hturns hc]
    refine hof.stuck.halts (Approach.open_noteAll.2 ⟨hA, fun _ h => hne ?_⟩) hl hc.noteAll
    exact endOfInput_covers.1 (by simpa using h)
  done hturns hc hl he := by
    obtain ⟨hB, hmem⟩ := end_noted hl he
    obtain ⟨rfl, -⟩ := hc.here (hw.leads.ends hB hmem).1
    exact ⟨_, commands_end he (turns_ne_nil hturns)⟩

theorem of_passed {w : Outcome Command} (hr : w.result = .ok a)
    (hw : w.Fits (A.noteAll [.endOfInput]) (fun _ => Loose) Always)
    (hof : Outcome.Of o (Parse.command n) (A.noteAll [.endOfInput]) w)
    (hend : .endOfInput ∉ A.before) (h : Stuck o n w.upTo B r) : Stuck o n A B r := by
  have hlt : w.upTo.before.length < A.before.length := hw.moves hr trivial
  have hA : A.before ≠ [] := List.length_pos_iff.1 (Nat.zero_lt_of_lt hlt)
  have hturns' {turns : List Reading} (hturns : A.before.length < turns.length) :
      w.upTo.before.length < turns.tail.length := by
    rw [List.length_tail]
    omega
  have hrun {l tail c turns} (hc : A.Meets l tail c) (hl : w.upTo.Open l)
      (hturns : A.before.length < turns.length) : ∃ d, w.upTo.Meets l tail d
        ∧ commands n turns o c
          = (commands n turns.tail >>= fun as => Pure.pure (a :: as)) o d := by
    obtain ⟨d, hd, hmeets⟩ : ∃ d, Parse.command n o (c.noteAll [.endOfInput]) = .ok (a, d)
        ∧ w.upTo.Meets l tail d := by
      have hrun := hof.run hc.noteAll hl
      rwa [Outcome.Is, hr] at hrun
    refine ⟨d, hmeets, ?_⟩
    rw [first hend (fun h => absurd h hA) hturns hc, bind_run, hd]
    rfl
  exact {
    opens _ h := absurd h hA
    missing := h.missing
    run hturns hc hl := by
      obtain ⟨d, hd, heq⟩ := hrun hc (h.opens hl) hturns
      rw [heq]
      exact (h.run (hturns' hturns) hd hl).bind
    halts {l turns} hturns _ hl hne m more c hc := by
      by_cases hopen : w.upTo.Open l
      · obtain ⟨d, hd, heq⟩ := hrun hc hopen hturns
        rw [heq, bind_run, h.halts (hturns' hturns) hopen hl hne hd]
        rfl
      · rw [first hend (fun _ => hne) hturns hc, bind_run,
          hof.halts (fun h => absurd h hA) hopen hc.noteAll]
        rfl
    done {l tail c turns} hturns hc hl he := by
      have hopen : w.upTo.Open l := fun hB ha =>
        hA (hw.leads.ends hB (end_noted (fun h => h hB ha) he).2).1
      obtain ⟨d, hd, heq⟩ := hrun hc hopen hturns
      obtain ⟨as, has⟩ := h.done (hturns' hturns) hd hl he
      exact ⟨(a :: as.1, as.2), by rw [heq, bind_run, has]; rfl⟩ }

theorem exists_stuck (hl : o.locations = false) (hn : A.before.length < n) (hA : A.Holds Loose)
    (hend : .endOfInput ∉ A.before) : ∃ B r, Stuck o n A B r := by
  induction hk : A.before.length using Nat.strongRecOn generalizing A with
  | ind k ih =>
    subst hk
    have hloose : (A.noteAll [.endOfInput]).Holds Loose := fun h =>
      loose_stable.noteAll (hA h) (by simpa using plain_endOfInput)
    obtain ⟨w, hw, hof⟩ := Foretells.command hl n (A.noteAll [.endOfInput]) hn hloose
    cases hr : w.result with
    | error r =>
      obtain ⟨B, res⟩ := w
      cases hr
      exact ⟨B, r, of_refused hw (hof ()) hend⟩
    | ok a =>
      have hlt : w.upTo.before.length < A.before.length := hw.moves hr trivial
      obtain ⟨B, r, h⟩ := ih _ hlt (Nat.lt_trans hlt hn) (hw.result hr)
        (fun h => hend (hw.leads.before.subset h)) rfl
      exact ⟨B, r, of_passed hr hw (hof ()) hend h⟩

end Stuck

end MailSieve
