import RhythmTiles.Proofs.Score.Length

/-!
# What of a text is complete

While a reader goes through a text, some phrases of it are complete and one may be begun. The text up to
the begun phrase is spelled by the complete ones whatever follows (`StopsBetween`), and a begun phrase is
a beginning of a unit or of a rest (`HasRead`). So the ticks that a reader has counted are those of the
phrases of the text that it has read (`HasRead.step`, `HasRead.run`), and a unit or a rest that it ends
is the last phrase of the text that ends there (`HasRead.spells_of_reached`).
-/

namespace RhythmTiles.Score

/-- The phrases that a text has completed by a position: some of the characters up to there spell them,
and the last of these is none of a rest, which could go on. -/
def CompletedBy (text : List Char) (position : Nat) (phrases : List Phrase) : Prop :=
  ∃ done, done <+: text ∧ done.length ≤ position + 1 ∧
    (∀ c ∈ done.getLast?, Letter.isRest c = false) ∧ Spells done phrases

/-! ## Places in a text -/

section

variable (meter : Meter)

/-- The text stops where a phrase may begin, behind phrases of so many ticks. -/
def StopsBetween (ticks : Nat) (text : List Char) : Prop :=
  ∃ phrases, (phrases.map (Phrase.ticks meter)).sum = ticks ∧
    ∀ ⦃rest later⦄, Spells rest later → Spells (text ++ rest) (phrases ++ later)

/-- The text stops behind a unit, the last of phrases of so many ticks: fill may follow, and a separator
must before the next phrase. -/
def StopsClosed (ticks : Nat) (text : List Char) : Prop :=
  ∃ phrases, (phrases.map (Phrase.ticks meter)).sum = ticks ∧
    ∀ ⦃fill rest unread later⦄, (∀ c ∈ fill, isFill c = true) → Ends isSeparator rest unread →
      Spells unread later → Spells (text ++ (fill ++ rest)) (phrases ++ later)

end

variable {meter : Meter} {ticks : Nat} {text body blanks code letters : List Char} {c : Char}

theorem stopsBetween_nil : StopsBetween meter 0 [] :=
  ⟨[], rfl, fun _ _ h => h⟩

theorem StopsBetween.spells (h : StopsBetween meter ticks text) :
    ∃ phrases, Spells text phrases ∧ (phrases.map (Phrase.ticks meter)).sum = ticks := by
  obtain ⟨phrases, hticks, hspells⟩ := h
  have hdone := hspells .done
  rw [List.append_nil, List.append_nil] at hdone
  exact ⟨phrases, hdone, hticks⟩

theorem StopsClosed.spells (h : StopsClosed meter ticks text) :
    ∃ phrases, Spells text phrases ∧ (phrases.map (Phrase.ticks meter)).sum = ticks := by
  obtain ⟨phrases, hticks, hspells⟩ := h
  have hnone : ∀ d ∈ ([] : List Char), isFill d = true := by simp
  have hdone := hspells hnone (Or.inl ⟨rfl, rfl⟩) .done
  rw [List.append_nil, List.append_nil, List.append_nil] at hdone
  exact ⟨phrases, hdone, hticks⟩

theorem StopsBetween.gap (h : StopsBetween meter ticks text) (hc : isGap c = true) :
    StopsBetween meter ticks (text ++ [c]) := by
  obtain ⟨phrases, hticks, hspells⟩ := h
  refine ⟨phrases, hticks, fun rest later hrest => ?_⟩
  rw [List.append_assoc]
  exact hspells (.gap hc hrest)

theorem StopsBetween.rest (h : StopsBetween meter ticks text) (hne : letters ≠ [])
    (hletters : ∀ d ∈ letters, Letter.isRest d = true) (hc : isGap c = true) :
    StopsBetween meter (ticks + letterSum letters * meter.ticksPerUnit) (text ++ letters ++ [c]) := by
  obtain ⟨phrases, hticks, hspells⟩ := h
  refine ⟨phrases ++ [.rest letters], ?_, fun rest later hrest => ?_⟩
  · simp [hticks, Phrase.ticks]
  · have hphrase := hspells (.rest hne hletters (Or.inr ⟨c, hc, rfl⟩) hrest)
    simpa only [List.append_assoc, List.cons_append, List.nil_append] using hphrase

theorem StopsBetween.unit (h : StopsBetween meter ticks text)
    (hbody : ∀ d ∈ body, isBodyChar d = true) (hblanks : ∀ d ∈ blanks, Text.isBlank d = true)
    (hcode : ∀ d ∈ code, isCodeChar d = true) (hletters : letterSum code ≠ 0) :
    StopsClosed meter (ticks + letterSum code * meter.ticksPerUnit)
      (text ++ '(' :: (body ++ ')' :: (blanks ++ '[' :: code)) ++ [']']) := by
  obtain ⟨phrases, hticks, hspells⟩ := h
  refine ⟨phrases ++ [.unit body code], ?_, fun fill rest unread later hfill hend hlater => ?_⟩
  · simp [hticks, Phrase.ticks]
  · have hletter : ∃ d ∈ code, Letter.isLength d = true := by
      by_contra hnone
      exact hletters (letterSum_eq_zero.2 hnone)
    have hphrase := hspells (.unit hbody hblanks hcode hletter hfill hend hlater)
    simpa only [List.append_assoc, List.cons_append, List.nil_append] using hphrase

theorem StopsClosed.fill (h : StopsClosed meter ticks text) (hc : isFill c = true) :
    StopsClosed meter ticks (text ++ [c]) := by
  obtain ⟨phrases, hticks, hspells⟩ := h
  refine ⟨phrases, hticks, fun fill rest unread later hfill hend hlater => ?_⟩
  have hmore : ∀ d ∈ c :: fill, isFill d = true := List.forall_mem_cons.2 ⟨hc, hfill⟩
  have hphrases := hspells hmore hend hlater
  rw [List.append_assoc]
  exact hphrases

theorem StopsClosed.separator (h : StopsClosed meter ticks text) (hc : isSeparator c = true) :
    StopsBetween meter ticks (text ++ [c]) := by
  obtain ⟨phrases, hticks, hspells⟩ := h
  refine ⟨phrases, hticks, fun rest later hrest => ?_⟩
  have hnone : ∀ d ∈ ([] : List Char), isFill d = true := by simp
  have hend : Ends isSeparator (c :: rest) rest := Or.inr ⟨c, hc, rfl⟩
  have hphrases := hspells hnone hend hrest
  rw [List.append_assoc]
  exact hphrases

/-! ## What a state has read -/

namespace Scan

variable {s s' : Scan} {position : Nat} {mode : Mode} {action : Action}

/-- The state belongs to the text read so far: it has counted the complete phrases of the text, and its
mode and the letters in hand are those of the phrase that is begun. -/
def HasRead (meter : Meter) (s : Scan) (text : List Char) : Prop :=
  match s.mode with
  | .idle => StopsBetween meter s.elapsed text
  | .rest => ∃ front letters, text = front ++ letters ∧ StopsBetween meter s.elapsed front ∧
      letters ≠ [] ∧ (∀ c ∈ letters, Letter.isRest c = true) ∧ s.restUnits = letterSum letters
  | .notes => ∃ front body, text = front ++ '(' :: body ∧ StopsBetween meter s.elapsed front ∧
      ∀ c ∈ body, isBodyChar c = true
  | .chordClosed => ∃ front body blanks, text = front ++ '(' :: (body ++ ')' :: blanks) ∧
      StopsBetween meter s.elapsed front ∧ (∀ c ∈ body, isBodyChar c = true) ∧
      ∀ c ∈ blanks, Text.isBlank c = true
  | .length => ∃ front body blanks code,
      text = front ++ '(' :: (body ++ ')' :: (blanks ++ '[' :: code)) ∧
      StopsBetween meter s.elapsed front ∧ (∀ c ∈ body, isBodyChar c = true) ∧
      (∀ c ∈ blanks, Text.isBlank c = true) ∧ (∀ c ∈ code, isCodeChar c = true) ∧
      s.lengthUnits = letterSum code
  | .closed => StopsClosed meter s.elapsed text

theorem hasRead_initial : HasRead meter {} [] := stopsBetween_nil

/-- A move reads its character. -/
theorem HasRead.apply (h : s.HasRead meter text) (hinv : s.Inv) (hmoves : Moves c s.mode mode action)
    (happly : s.apply meter position action = .ok s') :
    HasRead meter { s' with mode } (text ++ [c]) := by
  have hname := hinv.sound.name
  obtain ⟨hrest, -, -, hlength⟩ := hinv.clear
  unfold HasRead at h
  generalize s.mode = old at h hmoves hrest hlength
  -- a move grows the phrase that is begun by a character, or makes it one of the complete ones
  cases hmoves with
  | openChord hopen =>
    cases happly
    exact ⟨text, [], by rw [hopen], h, by simp⟩
  | beginRest hletter =>
    obtain ⟨-, rfl⟩ := addRest_eq_ok.1 happly
    refine ⟨text, [c], rfl, h, List.cons_ne_nil c [], by simp [hletter], ?_⟩
    simp [hrest (by simp), units_of_isRest hletter, letterSum_cons]
  | gap hgap =>
    cases happly
    exact StopsBetween.gap h hgap
  | growRest hletter =>
    obtain ⟨front, letters, rfl, hfront, hne, hletters, hunits⟩ := h
    obtain ⟨-, rfl⟩ := addRest_eq_ok.1 happly
    refine ⟨front, letters ++ [c], List.append_assoc _ _ _, hfront, by simp,
      List.forall_mem_append.2 ⟨hletters, List.forall_mem_singleton.2 hletter⟩, ?_⟩
    simp [hunits, units_of_isRest hletter, letterSum_append, letterSum_cons]
  | endRest hgap =>
    obtain ⟨front, letters, rfl, hfront, hne, hletters, hunits⟩ := h
    obtain ⟨-, rfl⟩ := finishRest_eq_ok.1 happly
    simp only [HasRead, hunits]
    exact hfront.rest hne hletters hgap
  | growName hchar =>
    obtain ⟨front, body, rfl, hfront, hbody⟩ := h
    cases happly
    exact ⟨front, body ++ [c], by simp, hfront,
      List.forall_mem_append.2 ⟨hbody, List.forall_mem_singleton.2 (isBodyChar_of_isNameChar hchar)⟩⟩
  | endName hblank =>
    obtain ⟨front, body, rfl, hfront, hbody⟩ := h
    obtain ⟨note, -, rfl⟩ := (flushName_eq_ok hname).1 happly
    exact ⟨front, body ++ [c], by simp, hfront,
      List.forall_mem_append.2 ⟨hbody, List.forall_mem_singleton.2 (by simp [isBodyChar, hblank])⟩⟩
  | pushGlyph hglyph =>
    obtain ⟨front, body, rfl, hfront, hbody⟩ := h
    obtain ⟨note, -, rfl⟩ := (pushGlyph_eq_ok hname).1 happly
    exact ⟨front, body ++ [c], by simp, hfront,
      List.forall_mem_append.2 ⟨hbody, List.forall_mem_singleton.2 (by simp [isBodyChar, hglyph])⟩⟩
  | closeChord hclose =>
    obtain ⟨front, body, rfl, hfront, hbody⟩ := h
    obtain ⟨note, -, rfl⟩ := (flushName_eq_ok hname).1 happly
    exact ⟨front, body, [], by simp [hclose], hfront, hbody, by simp⟩
  | blankBehind hblank =>
    obtain ⟨front, body, blanks, rfl, hfront, hbody, hblanks⟩ := h
    cases happly
    exact ⟨front, body, blanks ++ [c], by simp, hfront, hbody,
      List.forall_mem_append.2 ⟨hblanks, List.forall_mem_singleton.2 hblank⟩⟩
  | openLength hopen =>
    obtain ⟨front, body, blanks, rfl, hfront, hbody, hblanks⟩ := h
    cases happly
    exact ⟨front, body, blanks, [], by simp [hopen], hfront, hbody, hblanks, by simp,
      hlength (by simp)⟩
  | growLength hletter =>
    obtain ⟨front, body, blanks, code, rfl, hfront, hbody, hblanks, hcode, hunits⟩ := h
    obtain ⟨-, rfl⟩ := addLength_eq_ok.1 happly
    refine ⟨front, body, blanks, code ++ [c], by simp, hfront, hbody, hblanks,
      List.forall_mem_append.2 ⟨hcode, List.forall_mem_singleton.2 (by simp [isCodeChar, hletter])⟩, ?_⟩
    simp [hunits, letterSum_append, letterSum_cons]
  | blankWithin hletter hblank =>
    obtain ⟨front, body, blanks, code, rfl, hfront, hbody, hblanks, hcode, hunits⟩ := h
    cases happly
    refine ⟨front, body, blanks, code ++ [c], by simp, hfront, hbody, hblanks,
      List.forall_mem_append.2 ⟨hcode, List.forall_mem_singleton.2 (by simp [isCodeChar, hblank])⟩, ?_⟩
    simp [hunits, letterSum_append, letterSum_cons, units_eq_zero hletter]
  | closeLength hclose =>
    obtain ⟨front, body, blanks, code, rfl, hfront, hbody, hblanks, hcode, hunits⟩ := h
    obtain ⟨hletters, -, chord, -, rfl⟩ := finishUnit_eq_ok.1 happly
    simp only [HasRead, hunits, hclose]
    exact hfront.unit hbody hblanks hcode (hunits ▸ hletters)
  | separate hseparator =>
    cases happly
    exact StopsClosed.separator h hseparator
  | fill hfill =>
    cases happly
    exact StopsClosed.fill h hfill

theorem HasRead.step (h : s.HasRead meter text) (hinv : s.Inv)
    (hstep : s.step meter position c = .ok s') : s'.HasRead meter (text ++ [c]) := by
  obtain ⟨mode, action, next, htransition, happly, rfl⟩ := step_eq_ok.1 hstep
  exact h.apply hinv (moves_of_transition htransition) happly

/-- **A reader has counted the phrases of the text that it has read.** -/
theorem HasRead.run {cs : List Char} (h : s.HasRead meter text) (hinv : s.Inv)
    (hrun : s.run meter position cs = .ok s') : s'.HasRead meter (text ++ cs) := by
  induction cs generalizing s text position with
  | nil =>
    cases hrun
    rwa [List.append_nil]
  | cons c cs ih =>
    obtain ⟨next, hstep, hrun⟩ := Outcome.bind_eq_ok.1 hrun
    have hnext := ih (h.step hinv hstep) (hinv.step hstep) hrun
    rwa [List.append_assoc] at hnext

/-! ## Where a phrase is completed -/

/-- The ticks of all units and rests up to the one that an action ends. -/
def reached? (meter : Meter) (s : Scan) : Action → Option Nat
  | .finishUnit =>
    if s.lengthUnits = 0 then none else some (s.elapsed + s.lengthUnits * meter.ticksPerUnit)
  | .finishRest => some (s.elapsed + s.restUnits * meter.ticksPerUnit)
  | _ => none

/-- Units end at closing brackets, rests at gaps. -/
theorem mode_of_reached (htransition : transition s.mode (.ofChar c) = some (mode, action))
    (h : s.reached? meter action = some ticks) :
    (s.mode = .length ∧ c = ']' ∧ s.lengthUnits ≠ 0 ∧
        ticks = s.elapsed + s.lengthUnits * meter.ticksPerUnit) ∨
      (s.mode = .rest ∧ isGap c = true ∧
        ticks = s.elapsed + s.restUnits * meter.ticksPerUnit) := by
  have hmoves := moves_of_transition htransition
  generalize s.mode = old at hmoves
  cases hmoves with
  | endRest hgap =>
    cases h
    exact Or.inr ⟨rfl, hgap, rfl⟩
  | closeLength hclose =>
    unfold reached? at h
    split_ifs at h with hzero
    cases h
    exact Or.inl ⟨rfl, hclose, hzero, rfl⟩
  | _ => cases h

/-- **What a reader has counted at the end of a unit or a rest are the phrases up to there**, even if
the unit cannot be played. -/
theorem HasRead.spells_of_reached (h : s.HasRead meter text)
    (htransition : transition s.mode (.ofChar c) = some (mode, action))
    (hreached : s.reached? meter action = some ticks) :
    Letter.isRest c = false ∧ ∃ phrases, Spells (text ++ [c]) phrases ∧
      (phrases.map (Phrase.ticks meter)).sum = ticks := by
  rcases mode_of_reached htransition hreached with ⟨hmode, rfl, hunits, rfl⟩ | ⟨hmode, hgap, rfl⟩
  · simp only [HasRead, hmode] at h
    obtain ⟨front, body, blanks, code, rfl, hfront, hbody, hblanks, hcode, hletters⟩ := h
    rw [hletters] at hunits ⊢
    exact ⟨by decide, (hfront.unit hbody hblanks hcode hunits).spells⟩
  · simp only [HasRead, hmode] at h
    obtain ⟨front, letters, rfl, hfront, hne, hrest, hletters⟩ := h
    rw [hletters]
    refine ⟨?_, (hfront.rest hne hrest hgap).spells⟩
    cases hc : Letter.isRest c with
    | false => rfl
    | true =>
      rw [isGap_of_isRest hc] at hgap
      cases hgap

end Scan

end RhythmTiles.Score
