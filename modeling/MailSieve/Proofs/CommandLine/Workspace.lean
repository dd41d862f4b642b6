import MailSieve.CommandLine.Workspace
import MailSieve.Proofs.Json.Yields

/-! What is changed in a workspace, and what is not.
Where a name leads depends on the folders and the files that are there, not on what was read or
printed. A file is put into one place. Making folders touches no file, and as long as a name does
not lead up again it leads to a file that is there with or without the folders that were made. -/

namespace MailSieve.Workspace

/-- The same files. Folders may have been made. -/
structure SameFiles (w v : Workspace) : Prop where
  here : v.here = w.here
  files : v.files = w.files

structure SameTree (w v : Workspace) : Prop extends w.SameFiles v where
  folders : v.folders = w.folders

section Frame

variable {u v w : Workspace}

theorem SameFiles.refl (w : Workspace) : w.SameFiles w := ⟨rfl, rfl⟩

theorem SameFiles.trans (h : w.SameFiles v) (k : v.SameFiles u) : w.SameFiles u :=
  ⟨k.here.trans h.here, k.files.trans h.files⟩

theorem SameFiles.file? (h : w.SameFiles v) (place : Place) : v.file? place = w.file? place := by
  rw [Workspace.file?, h.files, Workspace.file?]

theorem SameTree.refl (w : Workspace) : w.SameTree w := ⟨.refl w, rfl⟩

theorem SameTree.trans (h : w.SameTree v) (k : v.SameTree u) : w.SameTree u :=
  ⟨h.toSameFiles.trans k.toSameFiles, k.folders.trans h.folders⟩

theorem SameTree.exists_eq (h : w.SameTree v) :
    ∃ input output errors, v = { w with input, output, errors } := by
  obtain ⟨here, files, folders, input, output, errors⟩ := v
  obtain ⟨⟨rfl, rfl⟩, rfl⟩ := h
  exact ⟨input, output, errors, rfl⟩

theorem SameTree.target (h : w.SameTree v) (name : String) : v.target name = w.target name := by
  obtain ⟨_, _, _, rfl⟩ := h.exists_eq
  rfl

theorem SameTree.isThere (h : w.SameTree v) (name : String) : v.isThere name = w.isThere name := by
  obtain ⟨_, _, _, rfl⟩ := h.exists_eq
  rfl

end Frame

section Put

variable {w : Workspace} {place q : Place} {content : FileContent}

theorem lookup_cons (f : Place × FileContent) (files : List (Place × FileContent)) :
    (f :: files).lookup q = if q = f.1 then some f.2 else files.lookup q := by
  by_cases hq : q = f.1
  · rw [if_pos hq, hq]
    exact List.lookup_cons_self
  · rw [if_neg hq, List.lookup_cons, beq_false_of_ne hq]

theorem lookup_replaced (files : List (Place × FileContent)) :
    (files.map fun f => if f.1 = place then (place, content) else f).lookup q
      = if q = place then (files.lookup q).map fun _ => content else files.lookup q := by
  induction files with
  | nil => exact (ite_self _).symm
  | cons f files ih =>
    rw [List.map_cons, lookup_cons, lookup_cons, ih]
    by_cases hf : f.1 = place
    · rw [if_pos hf, hf]
      split <;> rfl
    · rw [if_neg hf]
      by_cases hq : q = f.1
      · rw [if_pos hq, if_pos hq, if_neg (hq ▸ hf)]
      · rw [if_neg hq, if_neg hq]

theorem file?_put :
    (w.put place content).file? q = if q = place then some content else w.file? q := by
  have hthere : w.hasFile place = (w.files.lookup place).isSome := rfl
  by_cases hfile : w.hasFile place = true
  · rw [put, if_pos hfile, file?, lookup_replaced]
    split
    next hq =>
      obtain ⟨c, hc⟩ := Option.isSome_iff_exists.1 (hthere ▸ hfile)
      rw [hq, hc]
      rfl
    next => rfl
  · rw [put, if_neg hfile, file?, List.lookup_append, lookup_cons]
    split
    next hq =>
      rw [hthere, Option.not_isSome_iff_eq_none] at hfile
      rw [hq, hfile]
      rfl
    next => exact Option.or_none

end Put

section Leading

variable {v w : Workspace} {p place q : Place} {part : Path.Part} {parts : List Path.Part}
  {name : String} {content : FileContent}

theorem folder_iff :
    w.entry? p = some .folder ↔ w.file? p = none ∧ Device.at? p = none ∧ w.isFolder p = true := by
  unfold entry?
  cases w.file? p <;> cases Device.at? p <;> simp

theorem entry_of_file (h : w.file? p = some content) : w.entry? p = some (.file content) := by
  unfold entry?
  rw [h]

theorem step_from (h : w.step p part = .ok q) : w.entry? p = some .folder := by
  rw [step] at h
  split at h
  · cases h
  · assumption
  · cases h

theorem prefix_step (hpart : part ≠ ['.', '.']) (h : w.step p part = .ok q) : p <+: q := by
  rw [step, step_from h] at h
  dsimp only at h
  rw [if_neg hpart] at h
  split at h
  next =>
    cases h
    exact List.prefix_rfl
  next =>
    split at h
    next => cases h
    next =>
      cases h
      exact List.prefix_append p [part]

theorem step_congr (hv : v.entry? p = some .folder) (hw : w.entry? p = some .folder) :
    w.step p part = v.step p part := by
  rw [step, step, hv, hw]

theorem isFolder_above (hfile : w.file? place = some content) (habove : p <+: place)
    (hne : p ≠ place) : w.isFolder p = true := by
  obtain ⟨before, behind, hfiles, -⟩ := List.lookup_eq_some_iff.1 hfile
  have hlength : p.length < place.length :=
    Nat.lt_of_le_of_ne habove.length_le fun h => hne (habove.eq_of_length h)
  rw [isFolder, Bool.or_eq_true]
  refine .inr (List.any_eq_true.2 ⟨(place, content), ?_, ?_⟩)
  · rw [hfiles]
    exact List.mem_append_right _ List.mem_cons_self
  · rw [Bool.and_eq_true]
    exact ⟨List.isPrefixOf_iff_prefix.2 habove, decide_eq_true hlength⟩

/-- To a file that is there, a name that never leads up leads through folders that are there. -/
theorem follow_file (hsame : w.SameFiles v) (hfile : w.file? place = some content)
    (hup : ['.', '.'] ∉ parts) (h : parts.foldlM v.step p = .ok place) :
    p <+: place ∧ parts.foldlM w.step p = .ok place := by
  induction parts generalizing p with
  | nil =>
    cases h
    exact ⟨List.prefix_rfl, rfl⟩
  | cons part parts ih =>
    rw [List.mem_cons, not_or] at hup
    obtain ⟨q, hstep, h⟩ := Json.bind_eq_ok.1 h
    obtain ⟨hq, hfollow⟩ := ih hup.2 h
    have hp : p <+: place := (prefix_step (Ne.symm hup.1) hstep).trans hq
    obtain ⟨hnofile, hnodevice, -⟩ := folder_iff.1 (step_from hstep)
    rw [hsame.file?] at hnofile
    have hne : p ≠ place := by
      rintro rfl
      rw [hfile] at hnofile
      cases hnofile
    have hentry : w.entry? p = some .folder :=
      folder_iff.2 ⟨hnofile, hnodevice, isFolder_above hfile hp hne⟩
    refine ⟨hp, Json.bind_eq_ok.2 ⟨q, ?_, hfollow⟩⟩
    rw [step_congr (step_from hstep) hentry, hstep]

theorem lookupParts_ok (h : Path.lookupParts name = .ok parts) : parts = Path.split name := by
  rw [Path.lookupParts] at h
  repeat' split at h
  all_goals cases h
  rfl

theorem placeOf_target (h : w.target name = .ok place) : w.placeOf name = .ok place := by
  obtain ⟨parts, hparts, h⟩ := Json.bind_eq_ok.1 h
  refine Json.bind_eq_ok.2 ⟨parts, hparts, ?_⟩
  dsimp only at h
  split at h
  next =>
    obtain ⟨_, -, h⟩ := Json.bind_eq_ok.1 h
    cases h
  next =>
    obtain ⟨q, hq, h⟩ := Json.bind_eq_ok.1 h
    split at h
    next => cases h
    next =>
      cases h
      exact hq

/-- A name that never leads up and under which nothing is there fills a new place, whatever folders
are made for it. -/
theorem file?_target (hsame : w.SameFiles v) (hup : ['.', '.'] ∉ Path.split name)
    (hnew : w.isThere name = false) (h : v.target name = .ok place) : w.file? place = none := by
  obtain ⟨parts, hparts, hfollow⟩ := Json.bind_eq_ok.1 (placeOf_target h)
  cases hfile : w.file? place with
  | none => rfl
  | some content =>
    rw [follow, hsame.here] at hfollow
    have hplace : w.placeOf name = .ok place :=
      Json.bind_eq_ok.2
        ⟨parts, hparts, (follow_file hsame hfile (lookupParts_ok hparts ▸ hup) hfollow).2⟩
    have hfind : w.find name = .ok (.file content) := by
      refine Json.bind_eq_ok.2 ⟨place, hplace, ?_⟩
      rw [entry_of_file hfile]
      rfl
    rw [isThere, hfind] at hnew
    cases hnew

theorem sameFiles_makeFolder (h : w.makeFolder parts = .ok v) : w.SameFiles v := by
  obtain ⟨place, -, h⟩ := Json.bind_eq_ok.1 h
  split at h
  next =>
    cases h
    exact ⟨rfl, rfl⟩
  next =>
    cases h
    exact .refl _
  next => cases h

end Leading

end MailSieve.Workspace
