import MailSieve.Proofs.CommandLine.Effects
import MailSieve.Proofs.CommandLine.Generate

/-! Runs change their target, or nothing.
All that can fail in a run comes before its write or is the write, and a write that fails changes
nothing. So a run that fails leaves all files as they are, and one that goes well changes at most
the file that it was asked to fill. -/

namespace MailSieve

open CommandLine

section Closed

open Canonical

variable {l : Layout} {ms : List Mark}

theorem char_mem_renderChars {p : Punctuation} (h : Mark.punctuation p ∈ ms) :
    p.char ∈ l.renderChars ms := by
  refine List.mem_flatMap.2 ⟨.text [p.char], ?_, List.mem_singleton_self _⟩
  exact List.mem_flatMap.2 ⟨_, h, List.mem_singleton_self _⟩

theorem openBrace_mem_blockMarks (depth : Nat) (b : Block) :
    Mark.punctuation .openBrace ∈ blockMarks depth b := by
  obtain ⟨_ | ⟨c, cs⟩, _⟩ := b <;> exact List.mem_cons_self

theorem exists_punctuation (depth : Nat) (c : Command) :
    ∃ p, Mark.punctuation p ∈ commandMarks depth c := by
  cases c with
  | ifTest t b =>
    refine ⟨.openBrace, ?_⟩
    simp [commandMarks, spaced, openBrace_mem_blockMarks]
  | genericBlock name as b =>
    refine ⟨.openBrace, ?_⟩
    simp [commandMarks, spaced, openBrace_mem_blockMarks]
  | _ => exact ⟨.semicolon, List.mem_append_right _ (List.mem_singleton_self _)⟩

theorem Script.generate_eq_empty {s : Script} : s.generate l = "" ↔ s.commands = [] := by
  constructor
  · intro h
    cases hs : s.commands with
    | nil => rfl
    | cons c cs =>
      obtain ⟨p, hp⟩ := exists_punctuation 0 c
      rw [generate, hs] at h
      have hchars : l.renderChars (scriptMarks (c :: cs)) = [] := String.ofList_injective h
      have hmem := char_mem_renderChars (l := l) (List.mem_append_left (linesMarks 0 cs) hp)
      rw [scriptMarks] at hchars
      rw [hchars] at hmem
      cases hmem
  · intro h
    rw [generate, h]
    rfl

/-- What is written of a script: its canonical text and a line break, or nothing. -/
theorem CommandLine.generated_eq (s : Script) (l : Layout) :
    generated s l = if s.commands = [] then "" else s.generate l ++ l.newline := by
  rw [generated, closeText]
  by_cases h : s.generate l = ""
  · rw [if_pos (Script.generate_eq_empty.1 h), h]
    rfl
  · rw [if_neg (fun hs => h (Script.generate_eq_empty.2 hs)), if_neg (by simpa using h)]

end Closed

namespace CommandLine

/-- Whatever comes of the run, files and folders stay as they are. -/
def Run.Spares {α : Type} (r : Run (StateM Workspace) α) : Prop :=
  ∀ w : Workspace, w.SameTree (r.outcome w).2

/-- A run that does not end well leaves all files as they are. -/
def Run.Atomic (r : Run (StateM Workspace) Nat) : Prop :=
  ∀ w : Workspace, (r.outcome w).1 ≠ .ok 0 → w.SameFiles (r.outcome w).2

section Spares

variable {α β : Type} {r : Run (StateM Workspace) α} {k : α → Run (StateM Workspace) β}

theorem spares_pure (a : α) : Run.Spares (pure a) := fun w => .refl w

theorem spares_throw (f : Failure) : Run.Spares (throw f : Run (StateM Workspace) α) :=
  fun w => .refl w

theorem Run.Spares.sameTree {w v : Workspace} {a : Except Failure α} (hr : r.Spares)
    (h : r.outcome w = (a, v)) : w.SameTree v := by
  have hw := hr w
  rwa [h] at hw

theorem Run.Spares.bind (hr : r.Spares) (hk : ∀ a, (k a).Spares) : (r >>= k).Spares := by
  intro w
  have hw := hr w
  rw [outcome_bind]
  generalize r.outcome w = outcome at hw
  rcases outcome with ⟨f | a, v⟩
  · exact hw
  · exact hw.trans (hk a v)

theorem spares_orFail {context : String} {answer : StateM Workspace (Except FileError α)}
    (h : ∀ w : Workspace, w.SameTree (answered answer w).2) : (orFail context answer).Spares := by
  intro w
  have hw := h w
  rw [outcome_orFail]
  generalize answered answer w = answer at hw
  rcases answer with ⟨_ | _, _⟩ <;> exact hw

variable {own : Option String}

theorem spares_print (text : String) :
    Run.Spares ((Workspace.host own).print text : Run (StateM Workspace) Unit) :=
  fun _ => ⟨⟨rfl, rfl⟩, rfl⟩

theorem spares_report (text : String) :
    Run.Spares ((Workspace.host own).report text : Run (StateM Workspace) Unit) :=
  fun _ => ⟨⟨rfl, rfl⟩, rfl⟩

theorem spares_print_pure (text : String) (code : Nat) :
    Run.Spares ((Workspace.host own).print text >>= fun _ => pure code
      : Run (StateM Workspace) Nat) :=
  (spares_print text).bind fun _ => spares_pure code

theorem spares_fileExists (name : String) :
    Run.Spares ((Workspace.host own).fileExists name : Run (StateM Workspace) Bool) :=
  fun w => .refl w

theorem spares_readSource (file : String) : (readSource (Workspace.host own) file).Spares :=
  spares_orFail (Workspace.sameTree_loadScript own file)

theorem spares_reportFault (fault : Fault) (source file : String) :
    (reportFault (Workspace.host own) fault source file).Spares :=
  spares_report _

theorem spares_loadAndParse (settings : Settings) (locations : Bool) (file : String) :
    (loadAndParse (Workspace.host own) settings locations file).Spares := by
  refine (spares_readSource file).bind fun source => ?_
  split
  · exact spares_pure _
  · exact (spares_reportFault _ source file).bind fun _ => spares_pure _

theorem spares_runParse (settings : Settings) (file : String) (locations : Bool) :
    (runParse (Workspace.host own) settings file locations).Spares := by
  refine (spares_loadAndParse settings locations file).bind fun s? => ?_
  cases s? with
  | none => exact spares_pure 1
  | some s => exact spares_print_pure _ 0

theorem spares_countFaulty (settings : Settings) (files : List String) :
    (countFaulty (Workspace.host own) settings files).Spares := by
  induction files with
  | nil => exact spares_pure 0
  | cons file files ih =>
    refine (spares_loadAndParse settings true file).bind fun s? => ?_
    cases s? with
    | none => exact ih.bind fun _ => spares_pure _
    | some s => exact ih

theorem spares_runCheck (settings : Settings) (files : List String) :
    (runCheck (Workspace.host own) settings files).Spares := by
  refine (spares_countFaulty settings files).bind fun faulty => ?_
  split
  · exact spares_pure 0
  · exact (spares_report _).bind fun _ => spares_pure 1

theorem spares_runRequires (settings : Settings) (file : String) :
    (runRequires (Workspace.host own) settings file).Spares := by
  refine (spares_loadAndParse settings false file).bind fun s? => ?_
  cases s? with
  | none => exact spares_pure 1
  | some s => exact spares_print_pure _ _

theorem spares_runFormat_check (settings : Settings) (file : String) (choice : LayoutChoice)
    (target : Option String) :
    (runFormat (Workspace.host own) settings file choice true target).Spares := by
  refine (spares_readSource file).bind fun source => ?_
  split
  · exact (spares_reportFault _ source file).bind fun _ => spares_pure 1
  · rw [if_pos rfl]
    split
    · exact spares_pure 0
    · exact (spares_report _).bind fun _ => spares_pure 1

theorem spares_runConfig_show (settings : Settings) (settingsFile : Option String) :
    (runConfig (Workspace.host own) settings settingsFile false).Spares := by
  refine (spares_print _).bind fun _ => ?_
  rw [if_neg Bool.false_ne_true]
  exact spares_print_pure _ 0

end Spares

/-- What a request that went well leaves of a workspace `w`, from whose streams the settings may
have been read before, which makes it `u`. -/
def Request.Leaves (own settingsFile : Option String) (settings : Settings) (w u w' : Workspace) :
    Request → Prop
  | .format file choice false target => ∃ source s v,
    answered (loadScript (Workspace.host own) file) u = (.ok source, v)
      ∧ Script.parse settings.parseOptions source = .ok s
      ∧ w.Saved target (if s.commands = [] then ""
          else s.generate (choice.apply settings) ++ (choice.apply settings).newline) w'
  | .generate file choice target => ∃ source s v,
    answered (loadScript (Workspace.host own) file) u = (.ok source, v)
      ∧ Interchange.readScript source = .ok s
      ∧ w.Saved target (if s.commands = [] then ""
          else s.generate (choice.apply settings) ++ (choice.apply settings).newline) w'
  | .config true => ∃ name, settingsFile = some name ∧
    if w.isThere name then w'.files = w.files
    else
      let made : Workspace := { w with folders := w'.folders }
      made.Filled name Settings.standard.text w'
        ∧ (['.', '.'] ∉ Path.split name → ∀ place, made.target name = .ok place →
          w.file? place = none)
  | .parse _ _ | .format _ _ true _ | .check _ | .requires _ | .config false => w'.files = w.files

section Requests

variable {own settingsFile : Option String} {settings : Settings} {w u v w' : Workspace}
  {α : Type} {r : Run (StateM Workspace) α} {k : α → Run (StateM Workspace) Nat}
  {last : Run (StateM Workspace) Nat} {request : Request}

theorem Run.Spares.atomic {r : Run (StateM Workspace) Nat} (h : r.Spares) : r.Atomic :=
  fun w _ => (h w).toSameFiles

theorem Run.Spares.bind_atomic (hr : r.Spares) (hk : ∀ a, (k a).Atomic) : (r >>= k).Atomic := by
  intro w hne
  have hw := hr w
  rw [outcome_bind] at hne ⊢
  generalize r.outcome w = outcome at hw hne
  obtain ⟨f | a, v⟩ := outcome
  · exact hw.toSameFiles
  · exact hw.toSameFiles.trans (hk a v hne)

theorem atomic_write {context : String} {answer : StateM Workspace (Except FileError Unit)}
    (hanswer : ∀ (w : Workspace) e v, answered answer w = (.error e, v) → w.SameFiles v)
    (hlast : ∀ w, (last.outcome w).1 = .ok 0) :
    (orFail context answer >>= fun _ => last).Atomic := by
  intro w hne
  rw [outcome_bind, outcome_orFail] at hne ⊢
  cases hout : answered answer w with
  | mk res v =>
    rw [hout] at hne
    cases res with
    | error e => exact hanswer w e v hout
    | ok a => exact absurd (hlast v) hne

theorem atomic_saveScript (context : String) (target : Option String) (text : String) :
    (orFail context (saveScript (Workspace.host own) target text) >>= fun _ => pure 0
      : Run (StateM Workspace) Nat).Atomic := by
  refine atomic_write (fun w e v h => ?_) fun _ => rfl
  have hsaved := saveScript_saves own target text w
  rw [h] at hsaved
  exact hsaved.toSameFiles

theorem atomic_runFormat (file : String) (choice : LayoutChoice) (target : Option String) :
    (runFormat (Workspace.host own) settings file choice false target).Atomic := by
  refine (spares_readSource file).bind_atomic fun source => ?_
  split
  · exact ((spares_reportFault _ source file).bind fun _ => spares_pure 1).atomic
  · exact atomic_saveScript _ target _

theorem atomic_runGenerate (file : String) (choice : LayoutChoice) (target : Option String) :
    (runGenerate (Workspace.host own) settings file choice target).Atomic := by
  refine (spares_readSource file).bind_atomic fun source => ?_
  split
  · exact (spares_throw _).atomic
  · exact atomic_saveScript _ target _

theorem atomic_runConfig (init : Bool) :
    (runConfig (Workspace.host own) settings settingsFile init).Atomic := by
  cases init with
  | false => exact (spares_runConfig_show settings settingsFile).atomic
  | true =>
    refine (spares_print _).bind_atomic fun _ => ?_
    rw [if_pos rfl]
    cases settingsFile with
    | none => exact ((spares_throw _).bind fun _ => spares_print_pure _ 0).atomic
    | some name =>
      refine (spares_fileExists name).bind_atomic fun there => ?_
      split
      · exact ((spares_print _).bind fun _ => spares_print_pure _ 0).atomic
      · refine atomic_write (fun w e v h => ?_) fun _ => rfl
        have hwritten := writeFileInFolders_fills own name Settings.standard.text w
        rw [h] at hwritten
        exact hwritten

theorem atomic_runRequest (own settingsFile : Option String) (settings : Settings)
    (request : Request) :
    (runRequest (Workspace.host own) settings settingsFile request).Atomic := by
  cases request with
  | parse file locations => exact (spares_runParse settings file locations).atomic
  | format file choice check target =>
    cases check with
    | false => exact atomic_runFormat file choice target
    | true => exact (spares_runFormat_check settings file choice target).atomic
  | check files => exact (spares_runCheck settings files).atomic
  | generate file choice target => exact atomic_runGenerate file choice target
  | requires file => exact (spares_runRequires settings file).atomic
  | config init => exact atomic_runConfig init

theorem sameTree_load {file source : String}
    (hload : answered (loadScript (Workspace.host own) file) u = (.ok source, v)) :
    u.SameTree v := by
  have h := Workspace.sameTree_loadScript own file u
  rw [hload] at h
  exact h

theorem leaves_runFormat {file : String} {choice : LayoutChoice} {target : Option String}
    (hu : w.SameTree u)
    (h : (runFormat (Workspace.host own) settings file choice false target).outcome u
      = (.ok 0, w')) :
    (Request.format file choice false target).Leaves own settingsFile settings w u w' := by
  obtain ⟨source, s, v, hload, hs⟩ := runFormat_ok h
  refine ⟨source, s, v, hload, hs, ?_⟩
  have hsaved := saveScript_saves own target (generated s (choice.apply settings)) v
  rw [(runFormat_write_ok hload hs).1 h] at hsaved
  rw [← generated_eq]
  exact (hu.trans (sameTree_load hload)).saved hsaved

theorem leaves_runGenerate {file : String} {choice : LayoutChoice} {target : Option String}
    (hu : w.SameTree u)
    (h : (runGenerate (Workspace.host own) settings file choice target).outcome u
      = (.ok 0, w')) :
    (Request.generate file choice target).Leaves own settingsFile settings w u w' := by
  obtain ⟨source, v, hsource, -⟩ := outcome_bind_ok.1 h
  have hload := outcome_orFail_ok.1 hsource
  cases hs : Interchange.readScript source with
  | error e =>
    rw [runGenerate_broken hload hs] at h
    cases h
  | ok s =>
    refine ⟨source, s, v, hload, hs, ?_⟩
    have hsaved := saveScript_saves own target (generated s (choice.apply settings)) v
    rw [(runGenerate_write_ok hload hs).1 h] at hsaved
    rw [← generated_eq]
    exact (hu.trans (sameTree_load hload)).saved hsaved

theorem leaves_runConfig (hu : w.SameTree u)
    (h : (runConfig (Workspace.host own) settings settingsFile true).outcome u = (.ok 0, w')) :
    (Request.config true).Leaves own settingsFile settings w u w' := by
  obtain ⟨_, u', hprint, h⟩ := outcome_bind_ok.1 h
  have hu' : w.SameTree u' := hu.trans ((spares_print _).sameTree hprint)
  rw [if_pos rfl] at h
  obtain _ | name := settingsFile
  · obtain ⟨_, _, ⟨⟩, _⟩ := outcome_bind_ok.1 h
  obtain ⟨_, _, ⟨⟩, h⟩ := outcome_bind_ok.1 h
  refine ⟨name, rfl, ?_⟩
  split at h
  next hthere =>
    rw [if_pos ((hu'.isThere name).symm.trans hthere)]
    have hprinted := ((spares_print _).bind fun _ => spares_print_pure _ 0).sameTree h
    exact hprinted.files.trans hu'.files
  next hthere =>
    have hnew : w.isThere name = false := (hu'.isThere name).symm.trans (by simpa using hthere)
    obtain ⟨_, v, hwrite, h⟩ := outcome_bind_ok.1 h
    have hw' : v.SameTree w' := (spares_print_pure _ 0).sameTree h
    have hfilled := writeFileInFolders_fills own name Settings.standard.text u'
    rw [outcome_orFail_ok.1 hwrite] at hfilled
    rw [if_neg (hnew ▸ Bool.false_ne_true)]
    have hmade : ({ w with folders := w'.folders } : Workspace).SameTree
        { u' with folders := v.folders } :=
      ⟨⟨hu'.here, hu'.files⟩, hw'.folders.symm⟩
    have hsame : w.SameFiles { w with folders := w'.folders } := ⟨rfl, rfl⟩
    exact ⟨hmade.filled (hfilled.of_sameFiles hw'.toSameFiles),
      fun hup place hplace => Workspace.file?_target hsame hup hnew hplace⟩

theorem leaves_runRequest (hu : w.SameTree u)
    (h : (runRequest (Workspace.host own) settings settingsFile request).outcome u = (.ok 0, w')) :
    request.Leaves own settingsFile settings w u w' := by
  cases request with
  | parse file locations =>
    exact ((spares_runParse settings file locations).sameTree h).files.trans hu.files
  | format file choice check target =>
    cases check with
    | false => exact leaves_runFormat hu h
    | true =>
      exact ((spares_runFormat_check settings file choice target).sameTree h).files.trans hu.files
  | check files => exact ((spares_runCheck settings files).sameTree h).files.trans hu.files
  | generate file choice target => exact leaves_runGenerate hu h
  | requires file => exact ((spares_runRequires settings file).sameTree h).files.trans hu.files
  | config init =>
    cases init with
    | false => exact ((spares_runConfig_show settings settingsFile).sameTree h).files.trans hu.files
    | true => exact leaves_runConfig hu h

theorem invoke_eq (own : Option String) (i : Invocation) (w : Workspace) :
    invoke (Workspace.host own) i w
      = match loadSettings (Workspace.host own) (i.settingsFile.or own) w with
        | (settings, u) =>
          match (runRequest (Workspace.host own) settings (i.settingsFile.or own)
              i.request).outcome u with
          | (.ok code, v) => (code, v)
          | (.error f, v) => (1, { v with errors := v.errors ++ f.text }) := by
  have hname : (Workspace.host own).settingsFile = own := rfl
  simp only [invoke, bind, StateT.bind, hname]
  rcases loadSettings (Workspace.host own) (i.settingsFile.or own) w with ⟨settings, u⟩
  dsimp only
  unfold Run.outcome
  generalize ExceptT.run (runRequest (Workspace.host own) settings (i.settingsFile.or own)
    i.request) u = outcome
  obtain ⟨_ | _, _⟩ := outcome <;> rfl

end Requests

/-- A run that fails leaves all files as they are, and one that goes well changes at most one. -/
theorem run_atomic (own : Option String) (args : List String) (w : Workspace) :
    let r := run (Workspace.host own) args w
    (r.1 ≠ 0 → r.2.files = w.files)
      ∧ (r.1 = 0 → ∃ i settings u, Invocation.ofArguments args = .ok i
          ∧ loadSettings (Workspace.host own) (i.settingsFile.or own) w = (settings, u)
          ∧ w.SameTree u
          ∧ i.request.Leaves own (i.settingsFile.or own) settings w u r.2) := by
  intro r
  cases hi : Invocation.ofArguments args with
  | error e =>
    have hr : r = (2, { w with errors := w.errors ++ ("error: " ++ e.message ++ "\n") }) := by
      simp only [r, run, hi]
      rfl
    rw [hr]
    exact ⟨fun _ => rfl, fun h => by cases h⟩
  | ok i =>
    have hr : r = invoke (Workspace.host own) i w := by
      simp only [r, run, hi]
    have hu := Workspace.sameTree_loadSettings own (i.settingsFile.or own) w
    rw [hr, invoke_eq]
    obtain ⟨settings, u, hload⟩ : ∃ settings u,
        loadSettings (Workspace.host own) (i.settingsFile.or own) w = (settings, u) :=
      ⟨_, _, rfl⟩
    rw [hload] at hu ⊢
    dsimp only
    have hatomic := atomic_runRequest own (i.settingsFile.or own) settings i.request u
    cases hout : (runRequest (Workspace.host own) settings (i.settingsFile.or own)
        i.request).outcome u with
    | mk result v =>
      rw [hout] at hatomic
      cases result with
      | error f =>
        refine ⟨fun _ => ?_, fun h => by cases h⟩
        exact (hatomic (by simp)).files.trans hu.files
      | ok code =>
        refine ⟨fun hcode => ?_, fun hcode => ?_⟩
        · exact (hatomic (by simpa using hcode)).files.trans hu.files
        · cases hcode
          exact ⟨i, settings, u, rfl, hload, hu, leaves_runRequest hu hout⟩

/-- A name that leads up out of a folder that is missing does not show the file it leads to, so the
file is overwritten once the folder is made. -/
theorem not_run_atomic_up :
    let place : Place := ["x".toList, "s.json".toList]
    let text := "\x7b\x7d"
    let w : Workspace := { Workspace.empty ["x".toList] with files := [(place, .text text)] }
    let r := run (Workspace.host "/h/s.json") ["config", "--init", "--config", "n/../s.json"] w
    r.1 = 0 ∧ r.2.target "n/../s.json" = .ok place ∧ w.file? place = some (.text text)
      ∧ r.2.file? place = some (.text Settings.standard.text) ∧ Settings.standard.text ≠ text :=
  ⟨rfl, rfl, rfl, rfl, by decide⟩

end CommandLine

end MailSieve
