import MailSieve.Proofs.Canonical.Marks
import MailSieve.Proofs.CommandLine.Outcome
import MailSieve.Proofs.Located.Script

/-! One verdict on a script.
Whether locations are recorded decides neither if a text is a script nor which fault it has. So the
commands that read a script agree on it, though some ask for locations and some do not: all go on to
their own work, or all report the same fault. -/

namespace MailSieve

/-- The workspace after a fault of a source was reported. -/
def Workspace.told (v : Workspace) (f : Fault) (source file : String) : Workspace :=
  { v with errors := v.errors ++ (f.diagnostic.render source (Path.displayName file) ++ "\n") }

namespace CommandLine

variable (settingsFile : Option String) (file source : String) (settings : Settings)
  (w v : Workspace)

/-- Every command that reads this script reports the fault and ends with the code for it. -/
structure Rejects (f : Fault) : Prop where
  parse : ∀ locations,
    (runRequest (Workspace.host settingsFile) settings settingsFile
        (.parse file locations)).outcome w = (.ok 1, v.told f source file)
  format : ∀ choice check target,
    (runRequest (Workspace.host settingsFile) settings settingsFile
        (.format file choice check target)).outcome w = (.ok 1, v.told f source file)
  requires :
    (runRequest (Workspace.host settingsFile) settings settingsFile (.requires file)).outcome w
      = (.ok 1, v.told f source file)
  check :
    (runRequest (Workspace.host settingsFile) settings settingsFile (.check [file])).outcome w
      = (.ok 1, { v.told f source file with
          errors := (v.told f source file).errors
            ++ "1 of 1 script(s) failed to parse\n" })
  /-- Among other files it counts as faulty. -/
  count : ∀ files,
    (countFaulty (Workspace.host settingsFile) settings (file :: files)).outcome w
      = (do return (← countFaulty (Workspace.host settingsFile) settings files) + 1
          : Run (StateM Workspace) Nat).outcome (v.told f source file)

/-- Every command that reads this script goes on to its own work and reports no fault of it. -/
structure Accepts (s : Script) : Prop where
  parse : ∀ locations,
    (runRequest (Workspace.host settingsFile) settings settingsFile
        (.parse file locations)).outcome w
      = (.ok 0, { v with
          output := v.output
            ++ ((Interchange.encodeScript (if locations then s else s.erase)).pretty ++ "\n") })
  write : ∀ choice target,
    (runRequest (Workspace.host settingsFile) settings settingsFile
        (.format file choice false target)).outcome w
      = (do
          orFail "writing formatted script"
            (saveScript (Workspace.host settingsFile) target (generated s (choice.apply settings)))
          pure 0 : Run (StateM Workspace) Nat).outcome v
  compare : ∀ choice target,
    (runRequest (Workspace.host settingsFile) settings settingsFile
        (.format file choice true target)).outcome w
      = if generated s (choice.apply settings) = source then (.ok 0, v)
        else (.ok 1, { v with
          errors := v.errors ++ (Path.displayName file ++ " is not canonically formatted\n") })
  requires :
    (runRequest (Workspace.host settingsFile) settings settingsFile (.requires file)).outcome w
      = (.ok (if s.erase.missing.isEmpty then 0 else 1),
          { v with output := v.output ++ capabilityLines s.erase })
  check :
    (runRequest (Workspace.host settingsFile) settings settingsFile (.check [file])).outcome w
      = (.ok 0, v)
  /-- Among other files it counts as sound. -/
  count : ∀ files,
    (countFaulty (Workspace.host settingsFile) settings (file :: files)).outcome w
      = (countFaulty (Workspace.host settingsFile) settings files).outcome v

variable {settingsFile file source settings w v}

theorem loadAndParse_script {locations : Bool} {s : Script}
    (hload : answered (loadScript (Workspace.host settingsFile) file) w = (.ok source, v))
    (hs : Script.parse ⟨locations, settings.maxDepth.toNat⟩ source = .ok s) :
    (loadAndParse (Workspace.host settingsFile) settings locations file).outcome w
      = (.ok (some s), v) := by
  rw [loadAndParse, outcome_bind, readSource, outcome_orFail, hload]
  dsimp only [Settings.parseOptions]
  rw [hs]
  rfl

theorem loadAndParse_fault {locations : Bool} {f : Fault}
    (hload : answered (loadScript (Workspace.host settingsFile) file) w = (.ok source, v))
    (hf : Script.parse ⟨locations, settings.maxDepth.toNat⟩ source = .error f) :
    (loadAndParse (Workspace.host settingsFile) settings locations file).outcome w
      = (.ok none, v.told f source file) := by
  rw [loadAndParse, outcome_bind, readSource, outcome_orFail, hload]
  dsimp only [Settings.parseOptions]
  rw [hf]
  rfl

theorem rejects_of_parse {f : Fault}
    (hload : answered (loadScript (Workspace.host settingsFile) file) w = (.ok source, v))
    (hf : ∀ locations, Script.parse ⟨locations, settings.maxDepth.toNat⟩ source = .error f) :
    Rejects settingsFile file source settings w v f where
  parse locations := by
    rw [runRequest, runParse, outcome_bind, loadAndParse_fault hload (hf locations)]
    rfl
  format choice check target := by
    rw [runRequest, runFormat, outcome_bind, readSource, outcome_orFail, hload]
    dsimp only
    rw [Settings.parseOptions, hf]
    rfl
  requires := by
    rw [runRequest, runRequires, outcome_bind, loadAndParse_fault hload (hf false)]
    rfl
  check := by
    have hcount : toString 1 ++ " of " ++ toString 1 ++ " script(s) failed to parse\n"
        = "1 of 1 script(s) failed to parse\n" := by decide
    rw [runRequest, runCheck, outcome_bind, countFaulty, outcome_bind,
      loadAndParse_fault hload (hf true), ← hcount]
    rfl
  count files := by
    rw [countFaulty, outcome_bind, loadAndParse_fault hload (hf true)]

theorem accepts_of_parse {s : Script}
    (hload : answered (loadScript (Workspace.host settingsFile) file) w = (.ok source, v))
    (hs : ∀ locations : Bool, Script.parse ⟨locations, settings.maxDepth.toNat⟩ source
      = .ok (if locations then s else s.erase)) :
    Accepts settingsFile file source settings w v s where
  parse locations := by
    rw [runRequest, runParse, outcome_bind, loadAndParse_script hload (hs locations)]
    rfl
  write choice target := by
    rw [runRequest, runFormat, outcome_bind, readSource, outcome_orFail, hload]
    dsimp only
    rw [Settings.parseOptions, hs]
    rfl
  compare choice target := by
    rw [runRequest, runFormat, outcome_bind, readSource, outcome_orFail, hload]
    dsimp only
    rw [Settings.parseOptions, hs]
    simp only [if_true]
    split <;> rfl
  requires := by
    rw [runRequest, runRequires, outcome_bind, loadAndParse_script hload (hs false)]
    rfl
  check := by
    rw [runRequest, runCheck, outcome_bind, countFaulty, outcome_bind,
      loadAndParse_script hload (hs true)]
    rfl
  count files := by
    rw [countFaulty, outcome_bind, loadAndParse_script hload (hs true)]

/-- Recording locations changes nothing but the locations. A text has the same fault with and
without them, which every command reports, or it is the same script up to them, which is written
alike under every layout and accepted by every command. -/
theorem locations_change_nothing (limit : Nat) (source : String) :
    (∃ f, Script.parse ⟨true, limit⟩ source = .error f
        ∧ Script.parse ⟨false, limit⟩ source = .error f
        ∧ ∀ settingsFile file settings w v, settings.maxDepth.toNat = limit →
            answered (loadScript (Workspace.host settingsFile) file) w = (.ok source, v) →
            Rejects settingsFile file source settings w v f)
      ∨ ∃ s, Script.parse ⟨true, limit⟩ source = .ok s
        ∧ Script.parse ⟨false, limit⟩ source = .ok s.erase
        ∧ (∀ l : Layout, s.erase.generate l = s.generate l)
        ∧ ∀ settingsFile file settings w v, settings.maxDepth.toNat = limit →
            answered (loadScript (Workspace.host settingsFile) file) w = (.ok source, v) →
            Accepts settingsFile file source settings w v s := by
  have herase := Script.parse_erase limit source
  cases hs : Script.parse ⟨true, limit⟩ source with
  | error f =>
    rw [hs] at herase
    refine .inl ⟨f, rfl, herase, ?_⟩
    rintro settingsFile file settings w v rfl hload
    refine rejects_of_parse hload fun locations => ?_
    cases locations with
    | false => exact herase
    | true => exact hs
  | ok s =>
    rw [hs] at herase
    refine .inr ⟨s, rfl, herase, s.generate_erase, ?_⟩
    rintro settingsFile file settings w v rfl hload
    refine accepts_of_parse hload fun locations => ?_
    cases locations with
    | false => exact herase
    | true => exact hs

end CommandLine

end MailSieve
