import RhythmTiles.Proofs.Score.Invariant
import RhythmTiles.Proofs.Score.Remaining

/-!
# Reading a text is completing a state

A text completes a state when it continues what the state has begun (`Completes`). The reader's step
on a character does what the language does with it, mode by mode (`completes_cons`), and the reader
ends where nothing is missing (`completes_nil`). So a text is read just when it completes the first
state (`run_eq_ok`).
-/

namespace RhythmTiles.Score

namespace Scan

variable {meter : Meter} {text : List Char} {track : Track} {c : Char}

/-! ## What completes a state -/

/-- The text continues what the state has begun, and adds these events. -/
def Expects (meter : Meter) (s : Scan) (text : List Char) (later : Track) : Prop :=
  match s.mode with
  | .idle => Remaining meter s.elapsed text later
  | .rest => InRest meter s.elapsed s.restUnits text later
  | .notes => InNotes meter s.elapsed s.name s.pending text later
  | .chordClosed => Behind meter s.elapsed s.pending text later
  | .length => InLength meter s.elapsed s.pending s.lengthUnits text later
  | .closed => Closing meter s.elapsed text later

/-- The text completes the state to a track. -/
def Completes (meter : Meter) (s : Scan) (text : List Char) (track : Track) : Prop :=
  ∃ later, track = s.events.toList ++ later ∧ s.Expects meter text later

variable {s s' : Scan} {position : Nat} {mode mode' : Mode} {action : Action}

theorem exists_step (hmode : s.mode = mode)
    (h : transition mode (.ofChar c) = some (mode', action)) {P : Scan → Prop} :
    (∃ s', s.step meter position c = .ok s' ∧ P s') ↔
      ∃ next, s.apply meter position action = .ok next ∧ P { next with mode := mode' } := by
  simp only [step_eq_ok, hmode, h, Option.some.injEq, Prod.mk.injEq]
  constructor
  · rintro ⟨_, ⟨_, _, next, ⟨rfl, rfl⟩, happly, rfl⟩, hnext⟩
    exact ⟨next, happly, hnext⟩
  · rintro ⟨next, happly, hnext⟩
    exact ⟨_, ⟨mode', action, next, ⟨rfl, rfl⟩, happly, rfl⟩, hnext⟩

theorem not_exists_step (hmode : s.mode = mode) (h : transition mode (.ofChar c) = none)
    {P : Scan → Prop} : ¬∃ s', s.step meter position c = .ok s' ∧ P s' := by
  rintro ⟨s', hstep, -⟩
  obtain ⟨_, _, next, htransition, -⟩ := step_eq_ok.1 hstep
  rw [hmode, h] at htransition
  cases htransition

theorem completes_idle (hclear : s.Clear) (hmode : s.mode = .idle) :
    s.Completes meter (c :: text) track ↔
      ∃ s', s.step meter position c = .ok s' ∧ s'.Completes meter text track := by
  have hrest : s.restUnits = 0 := hclear.rest (by simp [hmode])
  have htransition := transition_idle c
  simp only [Completes, Expects, hmode, remaining_cons]
  split_ifs at htransition ⊢ with hopen hletter hgap
  · rw [exists_step hmode htransition]
    simp [apply]
  · rw [exists_step hmode htransition]
    simp only [addRest_eq_ok, hrest, Nat.zero_add, ← units_of_isRest hletter]
    constructor
    · rintro ⟨later, rfl, h⟩
      exact ⟨_, ⟨Nat.le_of_add_left_le h.le, rfl⟩, later, rfl, h⟩
    · rintro ⟨_, ⟨-, rfl⟩, later, rfl, h⟩
      exact ⟨later, rfl, h⟩
  · rw [exists_step hmode htransition]
    simp [apply, hgap]
  · simp [not_exists_step hmode htransition, hgap]

theorem completes_rest (hmode : s.mode = .rest) :
    s.Completes meter (c :: text) track ↔
      ∃ s', s.step meter position c = .ok s' ∧ s'.Completes meter text track := by
  have htransition := transition_rest c
  simp only [Completes, Expects, hmode, inRest_cons]
  split_ifs at htransition ⊢ with hletter hgap
  · rw [exists_step hmode htransition]
    simp only [addRest_eq_ok, ← units_of_isRest hletter]
    constructor
    · rintro ⟨later, rfl, h⟩
      exact ⟨_, ⟨Nat.le_of_add_left_le h.le, rfl⟩, later, rfl, h⟩
    · rintro ⟨_, ⟨-, rfl⟩, later, rfl, h⟩
      exact ⟨later, rfl, h⟩
  · rw [exists_step hmode htransition]
    simp only [apply, finishRest_eq_ok, hgap, true_and]
    constructor
    · rintro ⟨_, rfl, later, rfl, h⟩
      exact ⟨_, ⟨h.le, rfl⟩, later, by simp, h⟩
    · rintro ⟨_, ⟨-, rfl⟩, later, rfl, h⟩
      exact ⟨_, by simp, later, rfl, h⟩
  · simp [not_exists_step hmode htransition, hgap]

theorem completes_notes (hinv : s.Inv) (hmode : s.mode = .notes) :
    s.Completes meter (c :: text) track ↔
      ∃ s', s.step meter position c = .ok s' ∧ s'.Completes meter text track := by
  have hname := hinv.sound.name
  have htransition := transition_notes c
  simp only [Completes, Expects, hmode, inNotes_cons hname]
  split_ifs at htransition ⊢ with hc hblank hclose
  · rw [exists_step hmode htransition]
    simp [apply]
  · rw [exists_step hmode htransition]
    simp only [apply, flushName_eq_ok hname]
    constructor
    · rintro ⟨later, rfl, note, hnote, h⟩
      exact ⟨_, ⟨note, hnote, rfl⟩, later, rfl, h⟩
    · rintro ⟨_, ⟨note, hnote, rfl⟩, later, rfl, h⟩
      exact ⟨later, rfl, note, hnote, h⟩
  · rw [exists_step hmode htransition]
    simp only [apply, flushName_eq_ok hname]
    constructor
    · rintro ⟨later, rfl, note, hnote, h⟩
      exact ⟨_, ⟨note, hnote, rfl⟩, later, rfl, h⟩
    · rintro ⟨_, ⟨note, hnote, rfl⟩, later, rfl, h⟩
      exact ⟨later, rfl, note, hnote, h⟩
  · cases hg : Glyph.ofChar? c with
    | none =>
      rw [hg] at htransition
      simp [not_exists_step hmode htransition]
    | some g =>
      rw [hg] at htransition
      rw [exists_step hmode htransition]
      simp only [pushGlyph_eq_ok hname]
      constructor
      · rintro ⟨later, rfl, _, hg, note, hnote, h⟩
        cases hg
        exact ⟨_, ⟨note, hnote, rfl⟩, later, rfl, h⟩
      · rintro ⟨_, ⟨note, hnote, rfl⟩, later, rfl, h⟩
        exact ⟨later, rfl, g, rfl, note, hnote, h⟩

theorem completes_chordClosed (hclear : s.Clear) (hmode : s.mode = .chordClosed) :
    s.Completes meter (c :: text) track ↔
      ∃ s', s.step meter position c = .ok s' ∧ s'.Completes meter text track := by
  have hlength : s.lengthUnits = 0 := hclear.length (by simp [hmode])
  have htransition := transition_chordClosed c
  simp only [Completes, Expects, hmode, behind_cons]
  split_ifs at htransition ⊢ with hblank hopen
  · rw [exists_step hmode htransition]
    simp [apply]
  · rw [exists_step hmode htransition]
    simp [apply, hopen, hlength]
  · simp [not_exists_step hmode htransition, hopen]

theorem completes_length (hmode : s.mode = .length) :
    s.Completes meter (c :: text) track ↔
      ∃ s', s.step meter position c = .ok s' ∧ s'.Completes meter text track := by
  have htransition := transition_length c
  simp only [Completes, Expects, hmode, inLength_cons]
  split_ifs at htransition ⊢ with hletter hblank hclose
  · rw [exists_step hmode htransition]
    simp only [addLength_eq_ok]
    constructor
    · rintro ⟨later, rfl, h⟩
      exact ⟨_, ⟨Nat.le_of_add_left_le h.le, rfl⟩, later, rfl, h⟩
    · rintro ⟨_, ⟨-, rfl⟩, later, rfl, h⟩
      exact ⟨later, rfl, h⟩
  · rw [exists_step hmode htransition]
    simp [apply]
  · rw [exists_step hmode htransition]
    simp only [apply, finishUnit_eq_ok]
    constructor
    · rintro ⟨_, rfl, -, hunits, chord, later, hchord, rfl, h⟩
      exact ⟨_, ⟨hunits, h.le, chord, hchord position, rfl⟩, later, by simp, h⟩
    · rintro ⟨_, ⟨hunits, -, chord, hchord, rfl⟩, later, rfl, h⟩
      exact ⟨chord ++ later, by simp, hclose, hunits, chord, later, Chord.expand_position hchord,
        rfl, h⟩
  · simp [not_exists_step hmode htransition, hclose]

theorem completes_closed (hmode : s.mode = .closed) :
    s.Completes meter (c :: text) track ↔
      ∃ s', s.step meter position c = .ok s' ∧ s'.Completes meter text track := by
  have htransition := transition_closed c
  simp only [Completes, Expects, hmode, closing_cons]
  split_ifs at htransition ⊢ with hseparator hfill
  · rw [exists_step hmode htransition]
    simp [apply]
  · rw [exists_step hmode htransition]
    simp [apply, hfill]
  · simp [not_exists_step hmode htransition, hfill]

/-- **A text completes a state as its rest completes the state after one character.** -/
theorem completes_cons (hinv : s.Inv) (position : Nat) :
    s.Completes meter (c :: text) track ↔
      ∃ s', s.step meter position c = .ok s' ∧ s'.Completes meter text track := by
  cases hmode : s.mode with
  | idle => exact completes_idle hinv.clear hmode
  | rest => exact completes_rest hmode
  | notes => exact completes_notes hinv hmode
  | chordClosed => exact completes_chordClosed hinv.clear hmode
  | length => exact completes_length hmode
  | closed => exact completes_closed hmode

/-- Nothing completes a state when the reader may end there. -/
theorem completes_nil (hinv : s.Inv) (length : Nat) :
    s.Completes meter [] track ↔ s.finish meter length = .ok track := by
  have hlimit := hinv.sound.limit
  unfold finish
  cases hmode : s.mode with
  | idle =>
    simp only [Completes, Expects, hmode, remaining_nil, hlimit, true_and, exists_eq_right,
      List.append_nil, Except.ok.injEq]
    exact eq_comm
  | closed =>
    simp only [Completes, Expects, hmode, closing_nil, hlimit, true_and, exists_eq_right,
      List.append_nil, Except.ok.injEq]
    exact eq_comm
  | rest =>
    simp only [Completes, Expects, hmode, inRest_nil, Outcome.bind_eq_ok, finishRest_eq_ok]
    constructor
    · rintro ⟨_, rfl, hle, rfl⟩
      exact ⟨_, ⟨hle, rfl⟩, by simp; rfl⟩
    · rintro ⟨_, ⟨hle, rfl⟩, h⟩
      cases h
      exact ⟨_, by simp, hle, rfl⟩
  | notes => simp [Completes, Expects, hmode, inNotes_nil]
  | chordClosed => simp [Completes, Expects, hmode, behind_nil]
  | length => simp [Completes, Expects, hmode, inLength_nil]

/-- **The reader reads what completes its state.** -/
theorem run_eq_ok (hinv : s.Inv) (length : Nat) :
    (∃ last, s.run meter position text = .ok last ∧ last.finish meter length = .ok track) ↔
      s.Completes meter text track := by
  induction text generalizing s position with
  | nil =>
    rw [completes_nil hinv length]
    simp [run]
  | cons c text ih =>
    rw [completes_cons hinv position]
    simp only [run, Outcome.bind_eq_ok]
    constructor
    · rintro ⟨last, ⟨next, hstep, hrun⟩, hfinish⟩
      exact ⟨next, hstep, (ih (hinv.step hstep)).1 ⟨last, hrun, hfinish⟩⟩
    · rintro ⟨next, hstep, hnext⟩
      obtain ⟨last, hrun, hfinish⟩ := (ih (hinv.step hstep)).2 hnext
      exact ⟨last, ⟨next, hstep, hrun⟩, hfinish⟩

end Scan

/-- **A score is read just when it is spelled by phrases that can be played within the limit**, and
then it plays them one after the other. -/
theorem read_eq_ok_iff_spells (meter : Meter) (text : List Char) (track : Track) :
    read meter text = .ok track ↔
      ∃ phrases tracks, Spells text phrases ∧ List.Forall₂ (Phrase.Plays meter) phrases tracks ∧
        (phrases.map (Phrase.ticks meter)).sum ≤ maxTicks ∧ track = tracks.flatten := by
  unfold read
  rw [Outcome.bind_eq_ok, Scan.run_eq_ok Scan.inv_initial]
  simp [Scan.Completes, Scan.Expects, Remaining]

end RhythmTiles.Score
