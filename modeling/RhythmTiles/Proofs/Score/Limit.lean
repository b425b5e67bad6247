import RhythmTiles.Proofs.Chord.Faults
import RhythmTiles.Proofs.Score.Length

/-!
# The tick limit and the letters of a score

An action fails for the ticks that the reader has counted, or for a character or a name (`Blames`). The
ticks that it has counted, those of the letters in hand with them, are at most the ticks of the letters
it has read (`counted_of_apply`): what it drops is never counted again. So when they exceed the limit,
the letters of the text do too (`run_eq_overflow`), and a text whose letters keep the limit does not
overflow. Main theorem: `read_lasts_its_letters`.
-/

namespace RhythmTiles.Score

theorem checkTicks_eq_error {ticks : Nat} {fault : ScoreFault} :
    checkTicks ticks = .error fault ↔ maxTicks < ticks ∧ fault = .overflow ticks := by
  unfold checkTicks
  by_cases h : maxTicks < ticks
  · simp [h, eq_comm]
  · simp [h]

/-- The letter units that an action counts. -/
def Action.units : Action → Nat
  | .addLength c => (Letter.units? c).getD 0
  | .addRest c => (Letter.restUnits? c).getD 0
  | _ => 0

/-- A character counts its own units at most. -/
theorem Moves.units_le {mode mode' : Mode} {action : Action} {c : Char}
    (h : Moves c mode mode' action) : action.units ≤ (Letter.units? c).getD 0 := by
  cases h with
  | beginRest hletter | growRest hletter =>
    rw [units_of_isRest hletter]
    exact Nat.le_refl _
  | growLength => exact Nat.le_refl _
  | _ => exact Nat.zero_le _

namespace Scan

variable {meter : Meter} {s s' : Scan} {position ticks : Nat} {fault : ScoreFault} {action : Action}
  {c : Char}

/-- The ticks of all units and rests so far, and of the letters in hand. -/
def counted (meter : Meter) (s : Scan) : Nat :=
  s.elapsed + (s.lengthUnits + s.restUnits) * meter.ticksPerUnit

/-! ## Why an action fails -/

/-- What a reader blames for a fault: the ticks that it has counted, `units` more letters with them, or
the character at its position, or the name that is begun. -/
inductive Blames (meter : Meter) (s : Scan) (position units : Nat) : ScoreFault → Prop where
  | ticks {ticks : Nat} (hlimit : maxTicks < ticks)
      (hle : ticks ≤ s.counted meter + units * meter.ticksPerUnit) :
      Blames meter s position units (.overflow ticks)
  | character (cause : Misreading) : Blames meter s position units (.misread position cause)
  | name (hne : s.name ≠ []) (cause : Misreading) :
      Blames meter s position units (.misread s.nameStart cause)

theorem Blames.mono {units units' : Nat} (h : s.Blames meter position units fault)
    (hunits : units ≤ units') : s.Blames meter position units' fault := by
  cases h with
  | ticks hlimit hle =>
    have hmore := Nat.mul_le_mul_right meter.ticksPerUnit hunits
    exact .ticks hlimit (hle.trans (Nat.add_le_add_left hmore _))
  | character cause => exact .character cause
  | name hne cause => exact .name hne cause

theorem flushName_eq_error (h : s.flushName = .error fault) :
    ∃ cause, s.name ≠ [] ∧ fault = .misread s.nameStart cause := by
  unfold flushName at h
  split at h
  · cases h
  · rename_i hempty
    split at h
    · cases h
      exact ⟨_, fun hnil => hempty (List.isEmpty_iff.2 hnil), rfl⟩
    · cases h

theorem advance_eq_error {more : Nat} (h : s.advance more = .error fault) :
    maxTicks < s.elapsed + more ∧ fault = .overflow (s.elapsed + more) := by
  unfold advance at h
  rcases Outcome.bind_eq_error.1 h with h | ⟨_, -, h⟩
  · exact checkTicks_eq_error.1 h
  · cases h

theorem finishRest_eq_error (h : s.finishRest meter = .error fault) :
    ∃ ticks, maxTicks < ticks ∧ ticks ≤ s.counted meter ∧ fault = .overflow ticks := by
  have hcounted : s.elapsed + s.restUnits * meter.ticksPerUnit ≤ s.counted meter := by
    rw [counted, Nat.add_mul]
    omega
  unfold finishRest at h
  rcases Outcome.bind_eq_error.1 h with h | ⟨rest, hrest, h⟩
  · obtain ⟨hlimit, hfault⟩ := checkTicks_eq_error.1 h
    exact ⟨_, hlimit, by omega, hfault⟩
  · obtain ⟨-, rfl⟩ := checkTicks_eq_ok.1 hrest
    rcases Outcome.bind_eq_error.1 h with h | ⟨next, -, h⟩
    · obtain ⟨hlimit, hfault⟩ := advance_eq_error h
      exact ⟨_, hlimit, hcounted, hfault⟩
    · cases h

theorem finishUnit_eq_error (h : s.finishUnit meter position = .error fault) :
    s.Blames meter position 0 fault := by
  have hcounted : s.elapsed + s.lengthUnits * meter.ticksPerUnit ≤ s.counted meter := by
    rw [counted, Nat.add_mul]
    omega
  unfold finishUnit at h
  by_cases hzero : s.lengthUnits = 0
  · rw [if_pos hzero] at h
    cases h
    exact .character _
  · rw [if_neg hzero] at h
    rcases Outcome.bind_eq_error.1 h with h | ⟨length, hlength, h⟩
    · obtain ⟨hlimit, rfl⟩ := checkTicks_eq_error.1 h
      exact .ticks hlimit (by omega)
    obtain ⟨-, rfl⟩ := checkTicks_eq_ok.1 hlength
    rcases Outcome.bind_eq_error.1 h with h | ⟨next, -, h⟩
    · obtain ⟨hlimit, rfl⟩ := advance_eq_error h
      exact .ticks hlimit (by omega)
    rcases Outcome.bind_eq_error.1 h with h | ⟨chord, -, h⟩
    · obtain ⟨cause, -, rfl⟩ := Chord.expand_eq_error.1 h
      exact .character cause
    · cases h

/-- An action fails for its ticks, its character or its name. -/
theorem apply_eq_error (h : s.apply meter position action = .error fault) :
    s.Blames meter position action.units fault := by
  cases action with
  | skip | beginChord | nameChar c => cases h
  | flushName =>
    obtain ⟨cause, hne, rfl⟩ := flushName_eq_error h
    exact .name hne cause
  | pushGlyph g =>
    rcases Outcome.bind_eq_error.1 h with h | ⟨next, -, h⟩
    · obtain ⟨cause, hne, rfl⟩ := flushName_eq_error h
      exact .name hne cause
    · cases h
  | addLength c | addRest c =>
    rcases Outcome.bind_eq_error.1 h with h | ⟨_, -, h⟩
    · obtain ⟨hlimit, rfl⟩ := checkTicks_eq_error.1 h
      refine .ticks hlimit ?_
      simp only [counted, Action.units, Nat.add_mul]
      omega
    · cases h
  | finishUnit => exact finishUnit_eq_error h
  | finishRest =>
    obtain ⟨ticks, hlimit, hle, rfl⟩ := finishRest_eq_error h
    exact .ticks hlimit (Nat.le_add_right_of_le hle)

theorem step_eq_error (h : s.step meter position c = .error fault) :
    s.Blames meter position ((Letter.units? c).getD 0) fault := by
  unfold step at h
  cases htransition : transition s.mode (.ofChar c) with
  | none =>
    rw [htransition] at h
    cases h
    exact .character _
  | some out =>
    obtain ⟨mode, action⟩ := out
    rw [htransition] at h
    rcases Outcome.bind_eq_error.1 h with h | ⟨next, -, h⟩
    · exact (apply_eq_error h).mono (moves_of_transition htransition).units_le
    · cases h

/-! ## What is counted -/

/-- No tick is counted twice. -/
theorem counted_of_apply (hname : ∀ c ∈ s.name, isNameChar c = true)
    (h : s.apply meter position action = .ok s') :
    s'.counted meter ≤ s.counted meter + action.units * meter.ticksPerUnit := by
  cases action with
  | skip =>
    cases h
    exact Nat.le_add_right _ _
  | beginChord =>
    cases h
    simp only [counted, Nat.add_mul]
    omega
  | nameChar c =>
    cases h
    exact Nat.le_add_right _ _
  | flushName =>
    obtain ⟨note, -, rfl⟩ := (flushName_eq_ok hname).1 h
    exact Nat.le_add_right _ _
  | pushGlyph g =>
    obtain ⟨note, -, rfl⟩ := (pushGlyph_eq_ok hname).1 h
    exact Nat.le_add_right _ _
  | addLength c =>
    obtain ⟨-, rfl⟩ := addLength_eq_ok.1 h
    simp only [counted, Action.units, Nat.add_mul]
    omega
  | finishUnit =>
    -- the letters in hand become ticks, and are counted as before
    obtain ⟨-, -, chord, -, rfl⟩ := finishUnit_eq_ok.1 h
    simp only [counted, Nat.add_mul]
    omega
  | addRest c =>
    obtain ⟨-, rfl⟩ := addRest_eq_ok.1 h
    simp only [counted, Action.units, Nat.add_mul]
    omega
  | finishRest =>
    obtain ⟨-, rfl⟩ := finishRest_eq_ok.1 h
    simp only [counted, Nat.add_mul]
    omega

theorem counted_of_step (hinv : s.Inv) (h : s.step meter position c = .ok s') :
    s'.counted meter ≤ s.counted meter + (Letter.units? c).getD 0 * meter.ticksPerUnit := by
  obtain ⟨mode, action, next, htransition, happly, rfl⟩ := step_eq_ok.1 h
  have hunits := Nat.mul_le_mul_right meter.ticksPerUnit (moves_of_transition htransition).units_le
  exact (counted_of_apply hinv.sound.name happly).trans (Nat.add_le_add_left hunits _)

/-- **What is counted grows with the letters that are read.** -/
theorem counted_of_run {cs : List Char} (hinv : s.Inv) (h : s.run meter position cs = .ok s') :
    s'.counted meter ≤ s.counted meter + letterSum cs * meter.ticksPerUnit := by
  induction cs generalizing s position with
  | nil =>
    cases h
    exact Nat.le_add_right _ _
  | cons c cs ih =>
    obtain ⟨next, hstep, h⟩ := Outcome.bind_eq_ok.1 h
    have hnext := counted_of_step hinv hstep
    have hrun := ih (hinv.step hstep) h
    rw [letterSum_cons, Nat.add_mul]
    omega

/-- **A reading that overflows has more letters than the limit.** -/
theorem run_eq_overflow {cs : List Char} (hinv : s.Inv)
    (h : s.run meter position cs = .error (.overflow ticks)) :
    maxTicks < s.counted meter + letterSum cs * meter.ticksPerUnit := by
  induction cs generalizing s position with
  | nil => cases h
  | cons c cs ih =>
    rw [letterSum_cons, Nat.add_mul]
    rcases Outcome.bind_eq_error.1 h with hstep | ⟨next, hstep, h⟩
    · cases step_eq_error hstep with
      | ticks hlimit hle => omega
    · have hnext := counted_of_step hinv hstep
      have hrun := ih (hinv.step hstep) h
      omega

theorem finish_eq_overflow {length : Nat} (h : s.finish meter length = .error (.overflow ticks)) :
    maxTicks < s.counted meter := by
  unfold finish at h
  split at h
  · cases h
  · cases h
  · rcases Outcome.bind_eq_error.1 h with h | ⟨last, -, h⟩
    · obtain ⟨_, hlimit, hle, hfault⟩ := finishRest_eq_error h
      cases hfault
      omega
    · cases h
  · cases h

end Scan

/-- A score that overflows has more letters than the limit. -/
theorem lt_of_read_overflow {meter : Meter} {text : List Char} {ticks : Nat}
    (h : read meter text = .error (.overflow ticks)) :
    maxTicks < letterSum text * meter.ticksPerUnit := by
  have hzero : Scan.counted meter {} = 0 := by simp [Scan.counted]
  rcases Outcome.bind_eq_error.1 h with h | ⟨last, hrun, h⟩
  · simpa only [hzero, Nat.zero_add] using Scan.run_eq_overflow Scan.inv_initial h
  · have hcounted := Scan.counted_of_run Scan.inv_initial hrun
    rw [hzero, Nat.zero_add] at hcounted
    exact (Scan.finish_eq_overflow h).trans_le hcounted

/-- **A score lasts as long as its letters, and overflows only if they exceed the limit.** -/
theorem read_lasts_its_letters (meter : Meter) (text : List Char) :
    (∀ track, read meter text = .ok track →
      track.ticks = meter.ticksPerUnit * (Letter.soundTotal text + Letter.restTotal text) ∧
        track.ticks ≤ maxTicks) ∧
    ∀ ticks, read meter text = .error (.overflow ticks) →
      maxTicks < meter.ticksPerUnit * (Letter.soundTotal text + Letter.restTotal text) := by
  rw [← Letter.letterSum_eq, Nat.mul_comm]
  exact ⟨fun track h => ⟨ticks_read h, (read_spec h).1⟩, fun ticks h => lt_of_read_overflow h⟩

/-- Behind a unit of 69905 letter units at 240 ticks each there is no room for another letter. -/
theorem read_lasts_its_letters_at_limit :
    let meter : Meter := ⟨240, 720⟩
    let unit := "(c)[".toList ++ List.replicate 273 'H' ++ "LP]".toList
    (∃ track, read meter unit = .ok track ∧ track.ticks = 240 * (273 * 256 + 17)) ∧
      ∃ ticks, read meter (unit ++ ",Y".toList) = .error (.overflow ticks) ∧
        maxTicks < 240 * (273 * 256 + 17 + 1) := by
  intro meter unit
  have hletters : Letter.soundTotal unit + Letter.restTotal unit = 273 * 256 + 17 := by
    decide +kernel
  have hmore : Letter.soundTotal (unit ++ ",Y".toList) + Letter.restTotal (unit ++ ",Y".toList) =
      273 * 256 + 17 + 1 := by
    decide +kernel
  have hok : (read meter unit).toOption.isSome = true := by decide +kernel
  have hover : read meter (unit ++ ",Y".toList) = .error (.overflow 16777440) := by decide +kernel
  constructor
  · cases hread : read meter unit with
    | error fault =>
      rw [hread] at hok
      cases hok
    | ok track =>
      have hticks := ((read_lasts_its_letters meter unit).1 track hread).1
      rw [hletters] at hticks
      exact ⟨track, rfl, hticks⟩
  · have hlimit := (read_lasts_its_letters meter (unit ++ ",Y".toList)).2 16777440 hover
    rw [hmore] at hlimit
    exact ⟨16777440, hover, hlimit⟩

end RhythmTiles.Score
