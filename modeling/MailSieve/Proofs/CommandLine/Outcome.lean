import MailSieve.CommandLine.Run

/-! What runs of the command line do to a workspace.
A run takes a workspace to a result, or a failure, and to the workspace that it leaves. -/

namespace MailSieve.CommandLine

/-- The result of a run that starts with the workspace `w`, and the workspace that it leaves. -/
def Run.outcome {α : Type} (r : Run (StateM Workspace) α) (w : Workspace) :
    Except Failure α × Workspace := ExceptT.run r w

/-- The same for an answer of the host. -/
def answered {α : Type} (answer : StateM Workspace (Except FileError α)) (w : Workspace) :
    Except FileError α × Workspace := answer w

variable {α β : Type} {w v : Workspace}

theorem outcome_throw (f : Failure) :
    Run.outcome (throw f : Run (StateM Workspace) α) w = (.error f, w) := rfl

theorem outcome_bind (r : Run (StateM Workspace) α) (k : α → Run (StateM Workspace) β) :
    (r >>= k).outcome w = match r.outcome w with
      | (.ok a, v) => (k a).outcome v
      | (.error f, v) => (.error f, v) := by
  unfold Run.outcome ExceptT.run
  simp only [bind, ExceptT.bind, ExceptT.mk, StateT.bind, ExceptT.bindCont]
  rcases r w with ⟨_ | _, v⟩ <;> rfl

theorem outcome_bind_ok {r : Run (StateM Workspace) α} {k : α → Run (StateM Workspace) β} {b : β} :
    (r >>= k).outcome w = (.ok b, v)
      ↔ ∃ a u, r.outcome w = (.ok a, u) ∧ (k a).outcome u = (.ok b, v) := by
  rw [outcome_bind]
  rcases r.outcome w with ⟨f | a, u⟩
  · simp
  · refine ⟨fun h => ⟨a, u, rfl, h⟩, ?_⟩
    rintro ⟨_, _, ⟨⟩, h⟩
    exact h

theorem outcome_orFail {context : String} {answer : StateM Workspace (Except FileError α)} :
    (orFail context answer).outcome w = match answered answer w with
      | (.ok a, v) => (.ok a, v)
      | (.error e, v) => (.error (.ofFile context e), v) := by
  unfold Run.outcome answered orFail ExceptT.run
  simp only [ExceptT.mk, bind, StateT.bind]
  rcases answer w with ⟨_ | _, v⟩ <;> rfl

theorem outcome_orFail_ok {context : String} {answer : StateM Workspace (Except FileError α)}
    {a : α} : (orFail context answer).outcome w = (.ok a, v) ↔ answered answer w = (.ok a, v) := by
  rw [outcome_orFail]
  rcases answered answer w with ⟨_ | _, _⟩ <;> simp

theorem outcome_orFail_last_ok {context : String}
    {answer : StateM Workspace (Except FileError Unit)} {b : β} :
    (orFail context answer >>= fun _ => pure b : Run (StateM Workspace) β).outcome w = (.ok b, v)
      ↔ answered answer w = (.ok (), v) := by
  rw [outcome_bind_ok]
  constructor
  · rintro ⟨_, u, hu, ⟨⟩⟩
    exact outcome_orFail_ok.1 hu
  · intro h
    exact ⟨(), v, outcome_orFail_ok.2 h, rfl⟩

end MailSieve.CommandLine
