import RhythmTiles.Proofs.Score.Limit

/-!
# Where a text is misread

What a reader misreads is the character in front of it, or the name that is begun (`Scan.Blames`), or
the end of the text (`finish_eq_misread`). So a text is misread nowhere before the characters that a
reader without a name has gone through (`length_le_of_read_misread`).
-/

namespace RhythmTiles.Score

namespace Scan

variable {meter : Meter} {s s' : Scan} {position place : Nat} {cause : Misreading} {action : Action}
  {cs : List Char}

/-- A name that is begun starts at some position or behind it. -/
def NamedFrom (low : Nat) (s : Scan) : Prop := s.name ≠ [] → low ≤ s.nameStart

theorem NamedFrom.apply {low : Nat} (hnamed : s.NamedFrom low)
    (hname : ∀ c ∈ s.name, isNameChar c = true) (hle : low ≤ position)
    (h : s.apply meter position action = .ok s') : s'.NamedFrom low := by
  cases action with
  | skip =>
    cases h
    exact hnamed
  | beginChord =>
    cases h
    exact fun hne => absurd rfl hne
  | nameChar c =>
    cases h
    intro _
    -- only a character that begins a name gives it a new start
    by_cases hnil : s.name = []
    · simpa [hnil] using hle
    · simpa [hnil] using hnamed hnil
  | flushName =>
    obtain ⟨note, -, rfl⟩ := (flushName_eq_ok hname).1 h
    exact fun hne => absurd rfl hne
  | pushGlyph g =>
    obtain ⟨note, -, rfl⟩ := (pushGlyph_eq_ok hname).1 h
    exact fun hne => absurd rfl hne
  | addLength c =>
    obtain ⟨-, rfl⟩ := addLength_eq_ok.1 h
    exact hnamed
  | finishUnit =>
    obtain ⟨-, -, chord, -, rfl⟩ := finishUnit_eq_ok.1 h
    exact hnamed
  | addRest c =>
    obtain ⟨-, rfl⟩ := addRest_eq_ok.1 h
    exact hnamed
  | finishRest =>
    obtain ⟨-, rfl⟩ := finishRest_eq_ok.1 h
    exact hnamed

/-- **Nothing is misread before the reader's position**, but for the name that is begun there. -/
theorem le_of_run_misread {low : Nat} (hinv : s.Inv)
    (hnamed : s.NamedFrom low) (hle : low ≤ position)
    (h : s.run meter position cs = .error (.misread place cause)) : low ≤ place := by
  induction cs generalizing s position with
  | nil => cases h
  | cons c cs ih =>
    rcases Outcome.bind_eq_error.1 h with hstep | ⟨next, hstep, h⟩
    · cases step_eq_error hstep with
      | character => exact hle
      | name hne => exact hnamed hne
    · have hnext := hinv.step hstep
      obtain ⟨mode, action, reader, -, happly, rfl⟩ := step_eq_ok.1 hstep
      have hreader : reader.NamedFrom low := hnamed.apply hinv.sound.name hle happly
      exact ih hnext hreader (Nat.le_succ_of_le hle) h

theorem finish_eq_misread {length : Nat}
    (h : s.finish meter length = .error (.misread place cause)) :
    s.mode ≠ .rest ∧ place = length := by
  unfold finish at h
  split at h
  · cases h
  · cases h
  · rcases Outcome.bind_eq_error.1 h with h | ⟨last, -, h⟩
    · obtain ⟨ticks, -, -, hfault⟩ := finishRest_eq_error h
      cases hfault
    · cases h
  · rename_i hrest
    cases h
    exact ⟨hrest, rfl⟩

theorem run_append (front rest : List Char) :
    s.run meter position (front ++ rest) =
      s.run meter position front >>= fun next => next.run meter (position + front.length) rest := by
  induction front generalizing s position with
  | nil => rfl
  | cons c front ih =>
    simp only [List.cons_append, run, List.length_cons, Nat.add_comm front.length 1, ← Nat.add_assoc]
    cases s.step meter position c with
    | error fault => rfl
    | ok next => exact ih

end Scan

/-- A reader that has no name begun has not come to what is misread. -/
theorem length_le_of_read_misread {meter : Meter} {front rest : List Char} {place : Nat}
    {cause : Misreading} (h : read meter (front ++ rest) = .error (.misread place cause))
    {reader : Scan} (hreader : Scan.run meter {} 0 front = .ok reader) (hname : reader.name = []) :
    front.length ≤ place := by
  rcases Outcome.bind_eq_error.1 h with h | ⟨last, -, h⟩
  · rw [Scan.run_append] at h
    rcases Outcome.bind_eq_error.1 h with h | ⟨reader', hreader', h⟩
    · rw [hreader] at h
      cases h
    · obtain rfl : reader = reader' := Except.ok.inj (hreader.symm.trans hreader')
      exact Scan.le_of_run_misread (Scan.inv_initial.run hreader) (fun hne => absurd hname hne)
        (Nat.le_of_eq (Nat.zero_add _).symm) h
  · obtain ⟨-, rfl⟩ := Scan.finish_eq_misread h
    simp

end RhythmTiles.Score
