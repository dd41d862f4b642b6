import MailSieve.Settings.Store
import MailSieve.Proofs.Settings.Described

/-! Runs on a settings file.
Each law is about the file that some actions have left and about whatever actions follow, so that it
holds in every place of every run. -/

namespace MailSieve.Settings

section Runs

variable {file : Option String} {a : Action} {as : List Action}

theorem run_append (file : Option String) (as bs : List Action) :
    run file (as ++ bs) = run file as ++ run (after file as) bs := by
  induction as generalizing file with
  | nil => rfl
  | cons a as ih => exact congrArg (a.answer file :: ·) (ih (a.next file))

theorem run_save_load (file : Option String) (s : Settings) (bs : List Action) :
    run file (.save s :: .load :: bs) = .written :: .loaded s :: run (some s.text) bs := by
  change Answer.written :: Answer.loaded (load (some s.text)) :: run (some s.text) bs = _
  rw [load_text]

theorem run_init_load (bs : List Action) : run none (.init :: .load :: bs)
    = .initialized true :: .loaded standard :: run (some standard.text) bs := by
  change Answer.initialized true :: Answer.loaded (load (some standard.text))
    :: run (some standard.text) bs = _
  rw [load_text]

/-- The action leaves the file alone, whatever is in it. -/
def Action.Looks : Action → Prop
  | .read | .load | .format _ => True
  | .write _ | .remove | .init | .save _ => False

theorem Action.Looks.next_eq (h : a.Looks) (file : Option String) : a.next file = file := by
  cases a with
  | read | load | format => rfl
  | write | remove | init | save => exact h.elim

theorem Action.next_eq_none : a.next file = none ↔ a = .remove ∨ a.Looks ∧ file = none := by
  cases a with
  | remove => exact iff_of_true rfl (.inl rfl)
  | read | load | format => simp [Action.next, Action.Looks]
  | write | save => simp [Action.next, Action.Looks]
  | init => cases file <;> simp [Action.next, Action.Looks, Settings.init]

/-- There is no file if and only if it was removed, or was not there to begin with, and the actions
since then only looked at it. -/
theorem after_eq_none : after file as = none
    ↔ (∃ before since, as = before ++ .remove :: since ∧ ∀ a ∈ since, a.Looks)
      ∨ file = none ∧ ∀ a ∈ as, a.Looks := by
  induction as generalizing file with
  | nil =>
    constructor
    · exact fun h => .inr ⟨h, nofun⟩
    · rintro (⟨before, since, h, -⟩ | ⟨h, -⟩)
      · cases before <;> cases h
      · exact h
  | cons a as ih =>
    rw [List.forall_mem_cons]
    change after (a.next file) as = none ↔ _
    rw [ih, Action.next_eq_none]
    constructor
    · rintro (⟨before, since, rfl, hsince⟩ | ⟨rfl | ⟨ha, hfile⟩, has⟩)
      · exact .inl ⟨a :: before, since, rfl, hsince⟩
      · exact .inl ⟨[], as, rfl, has⟩
      · exact .inr ⟨hfile, ha, has⟩
    · rintro (⟨before, since, h, hsince⟩ | ⟨hfile, ha, has⟩)
      · cases before with
        | nil =>
          cases h
          exact .inr ⟨.inl rfl, hsince⟩
        | cons b before =>
          cases h
          exact .inl ⟨before, since, rfl, hsince⟩
      · exact .inr ⟨.inr ⟨ha, hfile⟩, has⟩

end Runs

/-- The laws of a store, for the file that the actions `as` have left. Each says what the next
actions answer, and by `run file bs` what file the actions `bs` after them find. -/
structure Lawful (file : Option String) (as : List Action) : Prop where
  saved : ∀ s bs, run file (as ++ .save s :: .load :: bs)
    = run file as ++ .written :: .loaded s :: run (some s.text) bs
  initialized : after file as = none → ∀ bs, run file (as ++ .init :: .load :: bs)
    = run file as ++ .initialized true :: .loaded standard :: run (some standard.text) bs
  kept : ∀ text, after file as = some text → ∀ bs, run file (as ++ .init :: bs)
    = run file as ++ .initialized false :: run (some text) bs
  absent : after file as = none
    ↔ (∃ before since, as = before ++ .remove :: since ∧ ∀ a ∈ since, a.Looks)
      ∨ file = none ∧ ∀ a ∈ as, a.Looks
  looked : ∀ a : Action, a.Looks → ∀ bs, run file (as ++ a :: bs)
    = run file as ++ a.answer (after file as) :: run (after file as) bs
  loaded : ∀ bs, ∃ s, Loads (after file as) s ∧ run file (as ++ .load :: bs)
    = run file as ++ .loaded s :: run (after file as) bs

/-- The settings file is a store: what was saved is loaded, only an absent file is initialized,
looking at the file leaves it as it is, and whatever it holds is loaded as what it describes or as
the defaults. -/
theorem store_lawful (file : Option String) (as : List Action) : Lawful file as where
  saved s bs := by rw [run_append, run_save_load]
  initialized hnone bs := by rw [run_append, hnone, run_init_load]
  kept text hsome bs := by
    rw [run_append, hsome]
    rfl
  absent := after_eq_none
  looked a ha bs := by
    rw [run_append, run, ha.next_eq]
  loaded bs := ⟨load (after file as), loads_load _, run_append ..⟩

end MailSieve.Settings
