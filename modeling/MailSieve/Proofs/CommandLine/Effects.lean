import MailSieve.Proofs.CommandLine.Outcome
import MailSieve.Proofs.CommandLine.Workspace

/-! What a host does to a workspace.
Reading and printing touch no file. A write fills the one place to which its name leads, or it fails
and changes nothing. -/

namespace MailSieve

open CommandLine

namespace Workspace

variable {w : Workspace} {name text : String}

/-- `w'` is what writing a text under a name leaves of `w`. A device keeps no text. -/
def Filled (w : Workspace) (name text : String) (w' : Workspace) : Prop :=
  ∃ place, w.target name = .ok place ∧
    match Device.at? place with
    | some _ => w'.files = w.files
    | none => ∀ q, w'.file? q = if q = place then some (.text text) else w.file? q

/-- The same for a text that is printed unless there is a target for it. -/
def Saved (w : Workspace) (target : Option String) (text : String) (w' : Workspace) : Prop :=
  match target with
  | some name => if Path.isStandardStream name then w'.files = w.files else w.Filled name text w'
  | none => w'.files = w.files

theorem SameTree.filled {v w' : Workspace} (h : w.SameTree v) (hv : v.Filled name text w') :
    w.Filled name text w' := by
  obtain ⟨place, hplace, hfilled⟩ := hv
  refine ⟨place, (h.target name).symm.trans hplace, ?_⟩
  split at hfilled
  · exact hfilled.trans h.files
  · exact fun q => (hfilled q).trans (by rw [h.file?])

theorem SameTree.saved {v w' : Workspace} {target : Option String} (h : w.SameTree v)
    (hv : v.Saved target text w') : w.Saved target text w' := by
  cases target with
  | none => exact hv.trans h.files
  | some name =>
    unfold Saved at hv ⊢
    dsimp only at hv ⊢
    split at hv
    next hstream =>
      rw [if_pos hstream]
      exact hv.trans h.files
    next hstream =>
      rw [if_neg hstream]
      exact h.filled hv

theorem Filled.of_sameFiles {v w' : Workspace} (hv : w.Filled name text v) (h : v.SameFiles w') :
    w.Filled name text w' := by
  obtain ⟨place, hplace, hfilled⟩ := hv
  refine ⟨place, hplace, ?_⟩
  split at hfilled
  · exact h.files.trans hfilled
  · exact fun q => (h.file? q).trans (hfilled q)

theorem sameTree_reading (name : String) (w : Workspace) :
    w.SameTree (answered (reading name) w).2 := by
  unfold answered reading
  split
  next => exact .refl w
  next => exact .refl w
  next => exact .refl w
  next d _ => cases d <;> exact ⟨⟨rfl, rfl⟩, rfl⟩

theorem sameTree_loadScript (own : Option String) (file : String) (w : Workspace) :
    w.SameTree (answered (loadScript (host own) file) w).2 := by
  unfold loadScript
  split
  · exact ⟨⟨rfl, rfl⟩, rfl⟩
  · exact sameTree_reading file w

theorem sameTree_loadSettings (own file : Option String) (w : Workspace) :
    w.SameTree (loadSettings (host own) file w).2 := by
  cases file with
  | none => exact .refl w
  | some name =>
    have hread := sameTree_reading name w
    unfold answered at hread
    simp only [loadSettings, host, bind, StateT.bind]
    generalize reading name w = answer at hread
    rcases answer with ⟨_ | _, _⟩ <;> exact hread

end Workspace

namespace CommandLine

section Writes

variable {name text : String} {w : Workspace} {place : Place}

theorem writing_nowhere {e : FileError} (h : w.target name = .error e) :
    answered (Workspace.writing name text) w = (.error e, w) := by
  unfold answered Workspace.writing
  rw [h]

theorem writing_device {d : Device} (h : w.target name = .ok place)
    (hd : Device.at? place = some d) :
    answered (Workspace.writing name text) w = answered (Workspace.sending d text) w := by
  unfold answered Workspace.writing
  rw [h]
  dsimp only
  rw [hd]

theorem writing_file (h : w.target name = .ok place) (hd : Device.at? place = none) :
    answered (Workspace.writing name text) w = (.ok (), w.put place (.text text)) := by
  unfold answered Workspace.writing
  rw [h]
  dsimp only
  rw [hd]

theorem sameTree_sending (d : Device) (text : String) (w : Workspace) :
    w.SameTree (answered (Workspace.sending d text) w).2 := by
  cases d <;> exact ⟨⟨rfl, rfl⟩, rfl⟩

/-- A write fills the place of its name, or fails and changes nothing. -/
theorem writing_fills (name text : String) (w : Workspace) :
    match answered (Workspace.writing name text) w with
    | (.ok (), w') => w.Filled name text w'
    | (.error _, w') => w.SameTree w' := by
  cases hplace : w.target name with
  | error e =>
    rw [writing_nowhere hplace]
    exact .refl w
  | ok place =>
    cases hdevice : Device.at? place with
    | none =>
      rw [writing_file hplace hdevice]
      refine ⟨place, hplace, ?_⟩
      rw [hdevice]
      exact fun q => Workspace.file?_put
    | some d =>
      have hsent := sameTree_sending d text w
      rw [writing_device hplace hdevice]
      generalize answered (Workspace.sending d text) w = sent at hsent
      obtain ⟨_ | _, v⟩ := sent
      · exact hsent
      · refine ⟨place, hplace, ?_⟩
        rw [hdevice]
        exact hsent.files

theorem saveScript_saves (own target : Option String) (text : String) (w : Workspace) :
    match answered (saveScript (Workspace.host own) target text) w with
    | (.ok (), w') => w.Saved target text w'
    | (.error _, w') => w.SameTree w' := by
  cases target with
  | none => exact rfl
  | some name =>
    unfold saveScript Workspace.Saved
    dsimp only
    by_cases hstream : Path.isStandardStream name = true
    · rw [if_pos hstream]
      simp only [if_pos hstream]
      exact rfl
    · rw [if_neg hstream]
      simp only [if_neg hstream]
      exact writing_fills name text w

end Writes

section Folders

def Keeps {α : Type} (answer : StateM Workspace α) : Prop :=
  ∀ w : Workspace, w.SameFiles (answer w).2

theorem Keeps.bind {α β : Type} {answer : StateM Workspace α} {k : α → StateM Workspace β}
    (ha : Keeps answer) (hk : ∀ a, Keeps (k a)) : Keeps (answer >>= k) :=
  fun w => (ha w).trans (hk (answer w).1 (answer w).2)

theorem keeps_makeFolder (own : Option String) (parts : List Path.Part) :
    Keeps ((Workspace.host own).makeFolder parts) := by
  intro w
  change w.SameFiles (Workspace.makingFolder parts w).2
  unfold Workspace.makingFolder
  cases hmade : w.makeFolder parts with
  | error e => exact .refl w
  | ok v => exact Workspace.sameFiles_makeFolder hmade

theorem keeps_makeFolders (own : Option String) (parts : List Path.Part) :
    Keeps ((Workspace.host own).makeFolders parts) := by
  induction parts with
  | nil => exact fun w => .refl w
  | cons part above ih =>
    refine (keeps_makeFolder own _).bind fun made => ?_
    split
    · refine ih.bind fun madeAbove => ?_
      split
      · exact keeps_makeFolder own _
      · exact fun w => .refl w
    · exact fun w => .refl w

theorem writing_folders (name text : String) (w : Workspace) :
    (answered (Workspace.writing name text) w).2.folders = w.folders := by
  cases hplace : w.target name with
  | error e => rw [writing_nowhere hplace]
  | ok place =>
    cases hdevice : Device.at? place with
    | none =>
      rw [writing_file hplace hdevice, Workspace.put]
      split <;> rfl
    | some d =>
      rw [writing_device hplace hdevice]
      exact (sameTree_sending d text w).folders

/-- A write for which folders may be made fills the place to which its name then leads, or fails
and leaves all files as they are. -/
theorem writeFileInFolders_fills (own : Option String) (name text : String) (w : Workspace) :
    match answered ((Workspace.host own).writeFileInFolders name text) w with
    | (.ok (), w') => ({ w with folders := w'.folders } : Workspace).Filled name text w'
    | (.error _, w') => w.SameFiles w' := by
  have hmade := keeps_makeFolders own (Path.parts name).dropLast.reverse w
  unfold answered Host.writeFileInFolders
  simp only [bind, StateT.bind]
  generalize (Workspace.host own).makeFolders (Path.parts name).dropLast.reverse w = made at hmade
  obtain ⟨e | _, v⟩ := made
  · exact hmade
  · have hwritten := writing_fills name text v
    have hfolders := writing_folders name text v
    change match answered (Workspace.writing name text) v with
      | (.ok (), w') => ({ w with folders := w'.folders } : Workspace).Filled name text w'
      | (.error _, w') => w.SameFiles w'
    generalize answered (Workspace.writing name text) v = written at hwritten hfolders
    obtain ⟨e | _, w'⟩ := written
    · exact hmade.trans hwritten.toSameFiles
    · refine Workspace.SameTree.filled ⟨⟨hmade.here, hmade.files⟩, ?_⟩ hwritten
      exact hfolders.symm

end Folders

end CommandLine

end MailSieve
