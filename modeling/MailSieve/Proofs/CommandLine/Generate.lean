import MailSieve.Proofs.CommandLine.Format
import MailSieve.Proofs.Interchange.Printed

/-! Generating a script from its printed tree.
A printed tree has lost at most locations, which its canonical text does not show. So generating
from it writes what formatting writes, as long as its JSON is not nested deeper than is read. -/

namespace MailSieve

theorem Script.exists_generated_eq (o' : ParseOptions) {o : ParseOptions} {source : String}
    {s : Script} (hs : parse o source = .ok s) (hd : o'.maxDepth = o.maxDepth) (l : Layout) :
    ∃ u, parse o' source = .ok u ∧ CommandLine.generated u l = CommandLine.generated s l := by
  have hbare : parse ⟨false, o'.maxDepth⟩ source = .ok s.erase := hd ▸ parse_erase_ok hs
  obtain ⟨u, hu⟩ := (exists_parse_iff o' source).2 ⟨_, hbare⟩
  have he : u.erase = s.erase := Except.ok.inj ((parse_erase_ok hu).symm.trans hbare)
  have hsame : u.generate l = s.generate l := by
    rw [← u.generate_erase, he, s.generate_erase]
  refine ⟨u, hu, ?_⟩
  rw [CommandLine.generated, CommandLine.generated, hsame]

namespace CommandLine

open Interchange Json

variable {settingsFile target : Option String} {file source text : String} {settings : Settings}
  {choice : LayoutChoice} {locations : Bool} {w v w' : Workspace} {s : Script}

theorem runParse_script
    (hload : answered (loadScript (Workspace.host settingsFile) file) w = (.ok source, v))
    (hs : Script.parse { settings.parseOptions with locations := locations } source = .ok s) :
    (runParse (Workspace.host settingsFile) settings file locations).outcome w
      = (.ok 0, { v with output := v.output ++ ((encodeScript s).pretty ++ "\n") }) := by
  rw [runParse, outcome_bind, loadAndParse, outcome_bind, readSource, outcome_orFail, hload]
  dsimp only
  rw [hs]
  rfl

theorem runParse_ok
    (h : (runParse (Workspace.host settingsFile) settings file locations).outcome w
      = (.ok 0, w')) :
    ∃ source s v, answered (loadScript (Workspace.host settingsFile) file) w = (.ok source, v)
      ∧ Script.parse { settings.parseOptions with locations := locations } source = .ok s
      ∧ w' = { v with output := v.output ++ ((encodeScript s).pretty ++ "\n") } := by
  obtain ⟨r, u, hr, hprint⟩ := outcome_bind_ok.1 h
  obtain ⟨source, v, hsource, hr⟩ := outcome_bind_ok.1 hr
  have hload := outcome_orFail_ok.1 hsource
  cases hs : Script.parse { settings.parseOptions with locations := locations } source with
  | ok s =>
    refine ⟨source, s, v, hload, hs, ?_⟩
    rw [runParse_script hload hs] at h
    exact (congrArg Prod.snd h).symm
  | error fault =>
    rw [hs] at hr
    obtain ⟨_, _, -, hr⟩ := outcome_bind_ok.1 hr
    cases hr
    cases hprint

theorem runGenerate_write_ok
    (hload : answered (loadScript (Workspace.host settingsFile) file) w = (.ok text, v))
    (hs : readScript text = .ok s) :
    (runGenerate (Workspace.host settingsFile) settings file choice target).outcome w
        = (.ok 0, w')
      ↔ answered (saveScript (Workspace.host settingsFile) target
          (generated s (choice.apply settings))) v = (.ok (), w') := by
  rw [runGenerate, outcome_bind, readSource, outcome_orFail, hload]
  dsimp only
  rw [hs]
  exact outcome_orFail_last_ok

theorem runGenerate_broken {e : Interchange.Error}
    (hload : answered (loadScript (Workspace.host settingsFile) file) w = (.ok text, v))
    (hs : readScript text = .error e) :
    (runGenerate (Workspace.host settingsFile) settings file choice target).outcome w
      = (.error ⟨"decoding JSON AST", none⟩, v) := by
  rw [runGenerate, outcome_bind, readSource, outcome_orFail, hload]
  dsimp only
  rw [hs]
  exact outcome_throw _

theorem saveScript_none (hv : v.output = "") :
    answered (saveScript (Workspace.host settingsFile) none text) v
      = (.ok (), { v with output := text }) := by
  change (Except.ok (), { v with output := v.output ++ text }) = _
  rw [hv, String.empty_append]

/-- The printed tree of a script generates what the script is formatted to, wherever it is read
from, if its JSON is nested as deep as is read; if it is nested deeper it is refused. -/
theorem runGenerate_printed (settingsFile : Option String) (file : String) (settings : Settings)
    (locations : Bool) (choice : LayoutChoice) (w w' : Workspace)
    (h : (runParse (Workspace.host settingsFile) settings file locations).outcome w
      = (.ok 0, w')) :
    ∃ source s v, answered (loadScript (Workspace.host settingsFile) file) w = (.ok source, v)
      ∧ Script.parse { settings.parseOptions with locations := locations } source = .ok s
      ∧ w' = { v with output := v.output ++ ((encodeScript s).pretty ++ "\n") }
      ∧ (∀ target z, (runFormat (Workspace.host settingsFile) settings file choice false
            target).outcome w = (.ok 0, z)
          ↔ answered (saveScript (Workspace.host settingsFile) target
              (generated s (choice.apply settings))) v = (.ok (), z))
      ∧ (source.utf8ByteSize < 2 ^ 63 → ∀ again x y,
          answered (loadScript (Workspace.host settingsFile) again) x
            = (.ok ((encodeScript s).pretty ++ "\n"), y) →
          ((encodeScript s).depth ≤ maxDepth → ∀ target z,
              (runGenerate (Workspace.host settingsFile) settings again choice target).outcome x
                = (.ok 0, z)
              ↔ answered (saveScript (Workspace.host settingsFile) target
                  (generated s (choice.apply settings))) y = (.ok (), z))
            ∧ (maxDepth < (encodeScript s).depth → ∀ target,
              (runGenerate (Workspace.host settingsFile) settings again choice target).outcome x
                = (.error ⟨"decoding JSON AST", none⟩, y))) := by
  obtain ⟨source, s, v, hload, hs, hw⟩ := runParse_ok h
  refine ⟨source, s, v, hload, hs, hw, fun target z => ?_, fun hsize again x y hx => ?_⟩
  · obtain ⟨u, hu, hsame⟩ :=
      Script.exists_generated_eq settings.parseOptions hs rfl (choice.apply settings)
    rw [runFormat_write_ok hload hu, hsame]
  · have hdenoted := parsed_denoted hsize hs
    refine ⟨fun hd target z => runGenerate_write_ok hx (readScript_printed hdenoted hd),
      fun hd target => ?_⟩
    obtain ⟨e, he⟩ := readScript_printed_deep hdenoted hd
    exact runGenerate_broken hx he

/-- A backslash that is escaped in the script is escaped in its printed tree. -/
theorem runGenerate_printed_redirect :
    let printed := "\x7b\n  \"commands\": [\n    \x7b\n      \"type\": \"Redirect\",\n"
      ++ "      \"address\": \x7b\n        \"value\": \"a\\\\b\",\n"
      ++ "        \"multiline\": false\n      \x7d,\n      \"copy\": false\n    \x7d\n  ]\n\x7d\n"
    (runParse (Workspace.host "") .standard "-" false).outcome
        ⟨[], [], [], "redirect \"a\\\\b\";", "", ""⟩
      = (.ok 0, ⟨[], [], [], "", printed, ""⟩)
    ∧ "redirect \"a\\\\b\";".utf8ByteSize < 2 ^ 63
    ∧ (runGenerate (Workspace.host "") .standard "-" ⟨none, false⟩ none).outcome
        ⟨[], [], [], printed, "", ""⟩
      = (.ok 0, ⟨[], [], [], "", "redirect \"a\\\\b\";\n", ""⟩) := by
  intro printed
  let s : Script := ⟨[.redirect ⟨⟨"a\\b", false, none⟩, false, none⟩], none⟩
  obtain ⟨hs, hgenerate⟩ :
      Script.parse { Settings.standard.parseOptions with locations := false }
          "redirect \"a\\\\b\";" = .ok s
        ∧ s.generate .standard = "redirect \"a\\\\b\";" := ⟨by decide +kernel, by decide +kernel⟩
  have hprinted : (encodeScript s).pretty ++ "\n" = printed := by decide +kernel
  have hgenerated : generated s (LayoutChoice.apply ⟨none, false⟩ .standard)
      = "redirect \"a\\\\b\";\n" := by
    change closeText "\n" (s.generate .standard) = _
    rw [hgenerate]
    rfl
  have hparse : (runParse (Workspace.host "") .standard "-" false).outcome
      ⟨[], [], [], "redirect \"a\\\\b\";", "", ""⟩ = (.ok 0, ⟨[], [], [], "", printed, ""⟩) := by
    rw [runParse_script (v := ⟨[], [], [], "", "", ""⟩) rfl hs, hprinted, String.empty_append]
  obtain ⟨source, u, v, hload, hu, -, -, hagain⟩ :=
    runGenerate_printed "" "-" .standard false ⟨none, false⟩ _ _ hparse
  obtain ⟨hsource, rfl⟩ := Prod.mk.inj hload
  cases hsource
  cases hs.symm.trans hu
  rw [hprinted, hgenerated] at hagain
  have hsize : "redirect \"a\\\\b\";".utf8ByteSize < 2 ^ 63 := by decide
  have hdepth : (encodeScript s).depth ≤ maxDepth := by decide
  exact ⟨hparse, hsize, ((hagain hsize "-" _ _ rfl).1 hdepth none _).2 (saveScript_none rfl)⟩

/-- A test that is an argument of a test lies four levels deeper in the JSON. -/
theorem not_runGenerate_printed_nested :
    ∃ printed formatted,
      (runParse (Workspace.host "") .standard "-" false).outcome
          ⟨[], [], [], "a a a a a a a a a a a a a a a a a a a a a a a a a a a a a a a a;", "", ""⟩
        = (.ok 0, ⟨[], [], [], "", printed, ""⟩)
      ∧ (runFormat (Workspace.host "") .standard "-" ⟨none, false⟩ false none).outcome
          ⟨[], [], [], "a a a a a a a a a a a a a a a a a a a a a a a a a a a a a a a a;", "", ""⟩
        = (.ok 0, ⟨[], [], [], "", formatted, ""⟩)
      ∧ (runGenerate (Workspace.host "") .standard "-" ⟨none, false⟩ none).outcome
          ⟨[], [], [], printed, "", ""⟩
        = (.error ⟨"decoding JSON AST", none⟩, ⟨[], [], [], "", "", ""⟩) := by
  have hread : (Script.parse { Settings.standard.parseOptions with locations := false }
      "a a a a a a a a a a a a a a a a a a a a a a a a a a a a a a a a;").map
        (fun s => (encodeScript s).depth) = .ok 128 := by decide +kernel
  obtain ⟨s, hs, hdepth⟩ := map_eq_ok.1 hread
  obtain ⟨u, hu, -⟩ :=
    Script.exists_generated_eq Settings.standard.parseOptions hs rfl .standard
  obtain ⟨e, he⟩ := readScript_printed_deep (parsed_denoted (by decide) hs) (hdepth ▸ by decide)
  refine ⟨(encodeScript s).pretty ++ "\n", generated u .standard, ?_, ?_, ?_⟩
  · rw [runParse_script (v := ⟨[], [], [], "", "", ""⟩) rfl hs, String.empty_append]
  · exact (runFormat_write_ok rfl hu).2 (saveScript_none rfl)
  · exact runGenerate_broken rfl he

end CommandLine

end MailSieve
