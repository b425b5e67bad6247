import RhythmTiles.Compiled.Basic
import RhythmTiles.Proofs.Level.Reading

/-!
# Where faults of a level end up

Only a fault of the document keeps a level from being compiled. A fault of a score costs the timeline
and the indicators, and the compiled level carries the same fault that compiling the timeline alone
reports: that of the first score that cannot be read. Aligning is never at fault
(`Timeline.ofText_ne_alignment`).
-/

namespace RhythmTiles

/-- The text of a level only has faults of its document. -/
theorem Level.ofText_eq_error {text : String} {fault : LevelFault}
    (h : Level.ofText text = .error fault) : ∃ cause, fault = .document cause := by
  unfold Level.ofText at h
  split at h
  · cases h
    exact ⟨_, rfl⟩
  · obtain ⟨cause, -, rfl⟩ := Outcome.mapError_eq_error.1 h
    exact ⟨cause, rfl⟩

/-- Compiling the timeline alone does not fail in the aligning. -/
theorem Timeline.ofText_ne_alignment (text : String) (music track : Nat) (shortage : Shortage) :
    Timeline.ofText text ≠ .error (.alignment music track shortage) := by
  intro h
  rcases Outcome.bind_eq_error.1 h with hlevel | ⟨level, -, htimeline⟩
  · obtain ⟨cause, hcause⟩ := Level.ofText_eq_error hlevel
    cases hcause
  · obtain ⟨_, _, cause, -, hcause⟩ := Level.timeline_eq_error htimeline
    cases hcause

namespace Compiled

theorem timelineFault_eq_none (options : Options) (level : Level) :
    (ofLevel options level).timelineFault = none ↔ level.Readable := by
  rw [← Level.timeline_isOk_iff]
  unfold ofLevel
  cases level.timeline with
  | ok timeline => simp
  | error fault => simp

/-- A fault of the timeline is kept, and nothing of a timeline is. -/
theorem ofLevel_of_error {options : Options} {level : Level} {fault : LevelFault}
    (h : level.timeline = .error fault) :
    (ofLevel options level).timeline = Timeline.empty ∧ (ofLevel options level).indicators = [] ∧
      (ofLevel options level).timelineFault = some fault := by
  unfold ofLevel
  rw [h]
  exact ⟨rfl, rfl, rfl⟩

theorem ofText_eq_error {options : Options} {text : String} {fault : LevelFault} :
    ofText options text = .error fault ↔ Level.ofText text = .error fault := by
  unfold ofText
  cases Level.ofText text <;> simp [Except.map]

/-- **Where faults end up**, for any text and options. -/
theorem ofText_faults (options : Options) (text : String) :
    (∀ fault, ofText options text = .error fault ↔ Level.ofText text = .error fault) ∧
    (∀ level, Level.ofText text = .ok level →
      ∃ compiled, ofText options text = .ok compiled ∧
        compiled.rows = (Layout.ofLevel level).rows ∧
        compiled.sections = (Layout.ofLevel level).sections ∧
        (compiled.timelineFault = none ↔ level.Readable) ∧
        (¬level.Readable →
          compiled.timeline = Timeline.empty ∧ compiled.indicators = [] ∧
          ∃ music track cause, level.FirstFault music track cause ∧
            Timeline.ofText text = .error (.score music track cause) ∧
            compiled.timelineFault = some (.score music track cause))) ∧
    ∀ music track shortage,
      ofText options text ≠ .error (.alignment music track shortage) ∧
      Timeline.ofText text ≠ .error (.alignment music track shortage) := by
  refine ⟨fun fault => ofText_eq_error, ?_, ?_⟩
  · intro level hlevel
    have hcompiled : ofText options text = .ok (ofLevel options level) := by
      simp only [ofText, hlevel]
      rfl
    refine ⟨_, hcompiled, rfl, rfl, timelineFault_eq_none options level, ?_⟩
    -- the text has a level, so what is wrong is a score, and the first of them
    intro hunreadable
    cases htimeline : level.timeline with
    | ok timeline =>
      exact absurd ((Level.timeline_isOk_iff level).1 ⟨timeline, htimeline⟩) hunreadable
    | error fault =>
      obtain ⟨hempty, hmarks, hfault⟩ := ofLevel_of_error htimeline
      obtain ⟨music, track, cause, hfirst, rfl⟩ := Level.timeline_eq_error htimeline
      refine ⟨hempty, hmarks, music, track, cause, hfirst, ?_, hfault⟩
      exact Outcome.bind_eq_error.2 (Or.inr ⟨level, hlevel, htimeline⟩)
  · intro music track shortage
    refine ⟨?_, Timeline.ofText_ne_alignment text music track shortage⟩
    intro h
    obtain ⟨cause, hcause⟩ := Level.ofText_eq_error (ofText_eq_error.1 h)
    cases hcause

/-- Two scores of this level cannot be read; the earlier one is blamed. -/
theorem ofText_faults_two_scores :
    let text := "\x7b\"baseBpm\": 60, \"musics\": ["
      ++ "\x7b\"id\": 1, \"baseBeats\": 0.5, \"scores\": [\"(c)[K]\", \"(x)[K]\"]\x7d, "
      ++ "\x7b\"id\": 2, \"baseBeats\": 0.5, \"scores\": [\"(\"]\x7d]\x7d"
    ∃ compiled, ofText Options.default text = .ok compiled ∧ compiled.indicators = [] ∧
      compiled.timelineFault.map LevelFault.message =
        some "Notation error in section 0, track 1, at character 1: Unknown note name 'x'" := by
  intro text
  have hread : (Level.ofText text).toOption.isSome = true := by decide +kernel
  have htext : (Outcome.fault? (Timeline.ofText text)).map LevelFault.message =
        some "Notation error in section 0, track 1, at character 1: Unknown note name 'x'" := by
    decide +kernel
  obtain ⟨-, hkept, -⟩ := ofText_faults Options.default text
  cases hlevel : Level.ofText text with
  | error fault => rw [hlevel] at hread; cases hread
  | ok level =>
    obtain ⟨compiled, hcompiled, -, -, -, hfaulty⟩ := hkept level hlevel
    have hunreadable : ¬level.Readable := by
      intro hreadable
      obtain ⟨timeline, htimeline⟩ := (Level.timeline_isOk_iff level).2 hreadable
      have hok : Timeline.ofText text = .ok timeline :=
        Outcome.bind_eq_ok.2 ⟨level, hlevel, htimeline⟩
      rw [hok] at htext
      cases htext
    obtain ⟨-, hmarks, music, track, cause, -, htimeline, hfault⟩ := hfaulty hunreadable
    rw [htimeline] at htext
    exact ⟨compiled, hcompiled, hmarks, by rw [hfault]; exact htext⟩

end Compiled

end RhythmTiles
