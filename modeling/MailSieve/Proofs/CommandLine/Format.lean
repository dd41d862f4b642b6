import MailSieve.Proofs.Canonical.Marks
import MailSieve.Proofs.CommandLine.Outcome
import MailSieve.Proofs.Json.Yields
import MailSieve.Proofs.Located.WellFormed

/-! Formatting a script that is formatted.
What formatting writes is the canonical text of a tree with one more line break. The line break
stands for no token, so the text is read back as what is kept of the tree, and a tree that was read
keeps everything that its canonical text shows. -/

namespace MailSieve

open Canonical Phrase CommandLine

section Closed

variable {s u : Script} {l : Layout} {o : ParseOptions} {source : String}

/-- The line break that closes a text is written like one between commands. -/
theorem Layout.render_closed (ms : List Mark) :
    l.render ms ++ l.newline = l.render (ms ++ [.line 0]) := by
  have hline : l.renderChars [.line 0] = l.newline.toList := by
    simp [renderChars, Mark.pieces, renderPiece, breakBefore]
  have happ : l.renderChars (ms ++ [.line 0]) = l.renderChars ms ++ l.renderChars [.line 0] := by
    simp [renderChars]
  rw [render, render, happ, hline, String.ofList_append, String.ofList_toList]

theorem lexes_closed (hc : s.Obeys .checked) (hl : l.Plain) :
    Lexes (s.generate l ++ l.newline) (tokens (scriptMarks s.commands)) := by
  have hlegible : Legible (scriptMarks s.commands ++ [.line 0]) :=
    (legible_script hc).append (.cons rfl trivial)
  rw [lexes_iff, Script.generate, Layout.render_closed, Layout.render, String.toList_ofList]
  simpa using l.lexed_renderChars hl hlegible

theorem lexes_generated (hc : s.Obeys .checked) (hl : l.Plain) :
    Lexes (generated s l) (tokens (scriptMarks s.commands)) := by
  rw [generated, closeText]
  split
  · exact lexes_generate hc hl
  · exact lexes_closed hc hl

theorem Script.parse_generated (ho : o.locations = false) (hc : s.Obeys .checked)
    (hr : s.Obeys .readable) (hd : s.depth ≤ o.maxDepth) (hl : l.Plain) :
    parse o (generated s l) = .ok s.erase.reduced.norm :=
  (parse_iff ho).2 ⟨_, lexes_generated hc hl, scriptPhrase_tokens hc hr hd⟩

theorem Script.exists_parse_generated (h : parse o source = .ok s) (hl : l.Plain) :
    ∃ u, parse o (generated s l) = .ok u ∧ u.generate l = s.generate l := by
  have he := parse_erase_ok h
  have hd : s.depth ≤ o.maxDepth := parse_depth_le h
  have hu : parse ⟨false, o.maxDepth⟩ (generated s l) = .ok s.erase.norm := by
    have hagain := parse_generated (o := ⟨false, o.maxDepth⟩) rfl
      (obeys_of_parse checked_grammatical checked_overlooks h)
      (obeys_of_parse readable_grammatical readable_overlooks h) hd hl
    rwa [reduced_eq (parse_obeys divided_grammatical rfl he).1] at hagain
  obtain ⟨u, hp⟩ := (exists_parse_iff o _).2 ⟨_, hu⟩
  have hnorm : u.erase = s.erase.norm := Except.ok.inj ((parse_erase_ok hp).symm.trans hu)
  refine ⟨u, hp, ?_⟩
  rw [← u.generate_erase, hnorm, generate_norm, generate_erase]

end Closed

namespace CommandLine

theorem LayoutChoice.apply_plain (choice : LayoutChoice) (settings : Settings) :
    (choice.apply settings).Plain where
  newline := by
    change (if choice.crlf then Newline.crlf.text else settings.newline.text) = "\n"
      ∨ (if choice.crlf then Newline.crlf.text else settings.newline.text) = "\r\n"
    split
    · exact .inr rfl
    · cases settings.newline with
      | lf => exact .inl rfl
      | crlf => exact .inr rfl
  indent := by
    have hspaces (n : Nat) : ∀ c ∈ (Settings.spaces n).toList, Trivia.isBlank c = true := by
      intro c hc
      rw [Settings.spaces, String.toList_ofList] at hc
      rw [List.eq_of_mem_replicate hc]
      rfl
    intro c hc
    change c ∈ ((choice.indent.map Settings.spaces).getD settings.layout.indent).toList at hc
    cases hi : choice.indent with
    | none =>
      rw [hi] at hc
      exact hspaces _ c hc
    | some n =>
      rw [hi] at hc
      exact hspaces n c hc

variable {settingsFile target : Option String} {file : String} {settings : Settings}
  {choice : LayoutChoice} {w v w' : Workspace} {source : String} {s : Script}

theorem runFormat_ok {check : Bool}
    (h : (runFormat (Workspace.host settingsFile) settings file choice check target).outcome w
      = (.ok 0, w')) :
    ∃ source s v, answered (loadScript (Workspace.host settingsFile) file) w = (.ok source, v)
      ∧ Script.parse settings.parseOptions source = .ok s := by
  obtain ⟨source, v, hsource, h⟩ := outcome_bind_ok.1 h
  refine ⟨source, ?_⟩
  cases hs : Script.parse settings.parseOptions source with
  | ok s => exact ⟨s, v, outcome_orFail_ok.1 hsource, rfl⟩
  | error fault =>
    rw [hs] at h
    obtain ⟨_, _, -, h⟩ := outcome_bind_ok.1 h
    cases h

theorem runFormat_write_ok
    (hload : answered (loadScript (Workspace.host settingsFile) file) w = (.ok source, v))
    (hs : Script.parse settings.parseOptions source = .ok s) :
    (runFormat (Workspace.host settingsFile) settings file choice false target).outcome w
        = (.ok 0, w')
      ↔ answered (saveScript (Workspace.host settingsFile) target
          (generated s (choice.apply settings))) v = (.ok (), w') := by
  rw [runFormat, outcome_bind, readSource, outcome_orFail, hload]
  dsimp only
  rw [hs]
  simp only [Bool.false_eq_true, if_false]
  exact outcome_orFail_last_ok

theorem runFormat_check_ok
    (hload : answered (loadScript (Workspace.host settingsFile) file) w = (.ok source, v))
    (hs : Script.parse settings.parseOptions source = .ok s)
    (hcanonical : generated s (choice.apply settings) = source) :
    (runFormat (Workspace.host settingsFile) settings file choice true target).outcome w
      = (.ok 0, v) := by
  rw [runFormat, outcome_bind, readSource, outcome_orFail, hload]
  dsimp only
  rw [hs]
  simp only [if_true, hcanonical]
  rfl

/-- What formatting has written, it writes again with the same settings and the same layout,
wherever it reads it from, and a check of it is passed. -/
theorem runFormat_again (settingsFile : Option String) (file : String) (settings : Settings)
    (choice : LayoutChoice) (target : Option String) (w w' : Workspace)
    (h : (runFormat (Workspace.host settingsFile) settings file choice false target).outcome w
      = (.ok 0, w')) :
    ∃ source s v, answered (loadScript (Workspace.host settingsFile) file) w = (.ok source, v)
      ∧ Script.parse settings.parseOptions source = .ok s
      ∧ answered (saveScript (Workspace.host settingsFile) target
          (generated s (choice.apply settings))) v = (.ok (), w')
      ∧ ∀ again x y, answered (loadScript (Workspace.host settingsFile) again) x
            = (.ok (generated s (choice.apply settings)), y) →
          (∀ target, (runFormat (Workspace.host settingsFile) settings again choice true
              target).outcome x = (.ok 0, y))
            ∧ ∀ target z, (runFormat (Workspace.host settingsFile) settings again choice false
                target).outcome x = (.ok 0, z)
              ↔ answered (saveScript (Workspace.host settingsFile) target
                  (generated s (choice.apply settings))) y = (.ok (), z) := by
  obtain ⟨source, s, v, hload, hs⟩ := runFormat_ok h
  refine ⟨source, s, v, hload, hs, (runFormat_write_ok hload hs).1 h, fun again x y hx => ?_⟩
  obtain ⟨u, hu, hsame⟩ := Script.exists_parse_generated hs (choice.apply_plain settings)
  have hgenerated : generated u (choice.apply settings) = generated s (choice.apply settings) := by
    rw [generated, generated, hsame]
  refine ⟨fun target => runFormat_check_ok hx hu hgenerated, fun target z => ?_⟩
  rw [runFormat_write_ok hx hu, hgenerated]

/-- Standard input is formatted, and what was printed passes the check. -/
theorem runFormat_again_bracketed :
    (runFormat (Workspace.host "") .standard "-" ⟨none, false⟩ false none).outcome
        ⟨[], [], [], "if true\x7bfoo[\"a\"];\x7d", "", ""⟩
      = (.ok 0, ⟨[], [], [], "", "if true \x7b\n    foo \"a\";\n\x7d\n", ""⟩)
    ∧ (runFormat (Workspace.host "") .standard "-" ⟨none, false⟩ true none).outcome
        ⟨[], [], [], "if true \x7b\n    foo \"a\";\n\x7d\n", "", ""⟩
      = (.ok 0, ⟨[], [], [], "", "", ""⟩) := by
  have hread : (Script.parse .standard "if true\x7bfoo[\"a\"];\x7d").map
      (fun s => s.generate .standard) = .ok "if true \x7b\n    foo \"a\";\n\x7d" := by
    decide +kernel
  obtain ⟨s, hs, hgenerate⟩ := Json.map_eq_ok.1 hread
  have htext : generated s .standard = "if true \x7b\n    foo \"a\";\n\x7d\n" := by
    rw [generated, hgenerate]
    rfl
  have hoptions : Settings.standard.parseOptions = .standard := rfl
  have hlayout : LayoutChoice.apply ⟨none, false⟩ .standard = .standard := rfl
  have hformat : (runFormat (Workspace.host "") .standard "-" ⟨none, false⟩ false none).outcome
      ⟨[], [], [], "if true\x7bfoo[\"a\"];\x7d", "", ""⟩
        = (.ok 0, ⟨[], [], [], "", "if true \x7b\n    foo \"a\";\n\x7d\n", ""⟩) := by
    rw [runFormat_write_ok rfl (hoptions ▸ hs), hlayout, htext]
    rfl
  refine ⟨hformat, ?_⟩
  obtain ⟨source, u, v, hload, -, hsave, hagain⟩ :=
    runFormat_again "" "-" .standard ⟨none, false⟩ none _ _ hformat
  obtain ⟨-, rfl⟩ := Prod.mk.inj hload
  have hprinted : "" ++ generated u (LayoutChoice.apply ⟨none, false⟩ .standard)
      = "if true \x7b\n    foo \"a\";\n\x7d\n" :=
    congrArg (fun r : Except FileError Unit × Workspace => r.2.output) hsave
  rw [String.empty_append] at hprinted
  rw [hprinted] at hagain
  exact (hagain "-" _ _ rfl).1 none

end CommandLine

end MailSieve
