import RhythmTiles.Proofs.Chord.Closed
import RhythmTiles.Proofs.Score.Invariant

/-!
# The states that a reader of a score reaches

Whatever has been read of a text, nothing is left in hand that the mode does not use, the time that has
passed is that of the events, and no note is open (`Reached.holds_nothing_open`). A chord is added to the
events as a whole, so that notes are closed by each action (`Scan.closed_apply`), and by each character
of a run (`Scan.closed_run`).
-/

namespace RhythmTiles.Score

namespace Scan

variable {meter : Meter} {s s' : Scan} {position : Nat}

/-- A rest that ends leaves the state clear, whatever mode follows. -/
theorem Clear.finishRest (hs : s.Clear) (h : s.finishRest meter = .ok s') : s'.Clear := by
  obtain ⟨-, rfl⟩ := finishRest_eq_ok.1 h
  exact ⟨fun _ => rfl, hs.name, hs.pending, hs.length⟩

theorem closed_finishRest (hs : Track.Closed s.events.toList) (h : s.finishRest meter = .ok s') :
    Track.Closed s'.events.toList := by
  obtain ⟨-, rfl⟩ := finishRest_eq_ok.1 h
  rw [Array.toList_push]
  exact hs.append (Track.closed_delay _)

/-- Every action keeps the notes closed: events come as a rest, or as a whole chord. -/
theorem closed_apply (hs : Track.Closed s.events.toList) (hname : ∀ c ∈ s.name, isNameChar c = true)
    {action : Action} (h : s.apply meter position action = .ok s') :
    Track.Closed s'.events.toList := by
  cases action with
  | skip | beginChord | nameChar c =>
    cases h
    exact hs
  | flushName =>
    obtain ⟨note, -, rfl⟩ := (flushName_eq_ok hname).1 h
    exact hs
  | pushGlyph g =>
    obtain ⟨note, -, rfl⟩ := (pushGlyph_eq_ok hname).1 h
    exact hs
  | addLength c =>
    obtain ⟨-, rfl⟩ := addLength_eq_ok.1 h
    exact hs
  | finishUnit =>
    obtain ⟨-, -, chord, hchord, rfl⟩ := finishUnit_eq_ok.1 h
    rw [Array.toList_append]
    exact hs.append (Chord.closed_expand hchord)
  | addRest c =>
    obtain ⟨-, rfl⟩ := addRest_eq_ok.1 h
    exact hs
  | finishRest => exact closed_finishRest hs h

theorem closed_run {cs : List Char} (hinv : s.Inv) (hs : Track.Closed s.events.toList)
    (h : s.run meter position cs = .ok s') : Track.Closed s'.events.toList := by
  induction cs generalizing s position with
  | nil =>
    cases h
    exact hs
  | cons c cs ih =>
    obtain ⟨next, hstep, hrun⟩ := Outcome.bind_eq_ok.1 h
    have hnext := hinv.step hstep
    obtain ⟨mode, action, applied, -, happly, rfl⟩ := step_eq_ok.1 hstep
    have hclosed := closed_apply hs hinv.sound.name happly
    exact ih hnext hclosed hrun

end Scan

/-- The states of a reader of a text: behind each beginning of the text that it can read, and at its end
behind the rest that ends there. -/
inductive Reached (meter : Meter) (text : List Char) : Scan → Prop
  | within {front behind : List Char} {s : Scan} (htext : text = front ++ behind)
      (hrun : Scan.run meter {} 0 front = .ok s) : Reached meter text s
  | ended {s last : Scan} (hrun : Scan.run meter {} 0 text = .ok s) (hmode : s.mode = .rest)
      (hrest : s.finishRest meter = .ok last) : Reached meter text last

/-- **In every state that is reached**, what the mode does not use is empty, the time that has passed is
that of the events, and every note of the events is closed. -/
theorem Reached.holds_nothing_open {meter : Meter} {text : List Char} {s : Scan}
    (h : Reached meter text s) :
    s.Clear ∧ s.elapsed = Track.ticks s.events.toList ∧ Track.Closed s.events.toList := by
  cases h with
  | within _ hrun =>
    have hinv := Scan.inv_initial.run hrun
    exact ⟨hinv.clear, hinv.sound.elapsed, Scan.closed_run Scan.inv_initial Track.closed_nil hrun⟩
  | ended hrun _ hrest =>
    have hinv := Scan.inv_initial.run hrun
    have hclosed := Scan.closed_run Scan.inv_initial Track.closed_nil hrun
    exact ⟨hinv.clear.finishRest hrest, (hinv.sound.finishRest hrest).elapsed,
      Scan.closed_finishRest hclosed hrest⟩

/-- Inside the second chord of this score the first one, an arpeggio, is closed, and a name is in hand. -/
theorem Reached.holds_nothing_open_within_chord :
    let text := "QQ,(c@e)[K],(a.#c)[K]".toList
    ∃ s, Reached ⟨60, 3840⟩ text s ∧ s.mode = .notes ∧ s.name = ['#', 'c'] ∧
      s.events.toList = [.delay 30720, .on 60, .delay 192, .on 64, .delay 1728, .off 60, .off 64] ∧
      s.lengthUnits = 0 ∧ s.restUnits = 0 ∧ s.elapsed = 32640 ∧ Track.Closed s.events.toList := by
  intro text
  have htext : text = "QQ,(c@e)[K],(a.#c".toList ++ ")[K]".toList := by decide
  have hparts : ((Scan.run ⟨60, 3840⟩ {} 0 "QQ,(c@e)[K],(a.#c".toList).toOption.map fun s =>
      (s.mode, s.name, s.events.toList)) = some (.notes, ['#', 'c'],
        [.delay 30720, .on 60, .delay 192, .on 64, .delay 1728, .off 60, .off 64]) := by
    decide +kernel
  cases hrun : Scan.run ⟨60, 3840⟩ {} 0 "QQ,(c@e)[K],(a.#c".toList with
  | error fault =>
    rw [hrun] at hparts
    cases hparts
  | ok s =>
    rw [hrun] at hparts
    obtain ⟨hmode, hrest⟩ := Prod.mk.inj (Option.some.inj hparts)
    obtain ⟨hname, hevents⟩ := Prod.mk.inj hrest
    have hreached : Reached ⟨60, 3840⟩ text s := .within htext hrun
    obtain ⟨hclear, helapsed, hclosed⟩ := hreached.holds_nothing_open
    refine ⟨s, hreached, hmode, hname, hevents, hclear.length ?_, hclear.rest ?_, ?_, hclosed⟩
    · rw [hmode]
      decide
    · rw [hmode]
      decide
    · rw [helapsed, hevents]
      rfl

end RhythmTiles.Score
