import RhythmTiles.Proofs.Score.Following
import RhythmTiles.Proofs.Score.Misread

/-!
# Scores behind a separator

A reader that comes to a separator at the end of a score stands where a fresh reader stands, but for the
events, the ticks and the characters behind it (`follows_separator`). So a score gives behind the
separator what it gives alone, as long as the ticks of both keep the limit: what exceeds it are the ticks
of both scores (`lt_ticks_of_overruns`), or of what the second has completed before it is misread
(`OverrunsIn.completedBy`). Main theorem: `read_separator`.
-/

namespace RhythmTiles.Score

namespace Scan

variable {meter : Meter} {before : Track} {position : Nat} {s s' : Scan} {action : Action} {c : Char}
  {cs : List Char}

/-! ## How far a reading comes -/

theorem elapsed_of_apply (hname : ∀ c ∈ s.name, isNameChar c = true)
    (h : s.apply meter position action = .ok s') :
    s'.elapsed = (s.reached? meter action).getD s.elapsed := by
  cases action with
  | skip | beginChord | nameChar c =>
    cases h
    rfl
  | flushName =>
    obtain ⟨note, -, rfl⟩ := (flushName_eq_ok hname).1 h
    rfl
  | pushGlyph g =>
    obtain ⟨note, -, rfl⟩ := (pushGlyph_eq_ok hname).1 h
    rfl
  | addLength c =>
    obtain ⟨-, rfl⟩ := addLength_eq_ok.1 h
    rfl
  | finishUnit =>
    obtain ⟨hunits, -, chord, -, rfl⟩ := finishUnit_eq_ok.1 h
    simp [reached?, hunits]
  | addRest c =>
    obtain ⟨-, rfl⟩ := addRest_eq_ok.1 h
    rfl
  | finishRest =>
    obtain ⟨-, rfl⟩ := finishRest_eq_ok.1 h
    rfl

theorem elapsed_le_of_step (hinv : s.Inv) (h : s.step meter position c = .ok s') :
    s.elapsed ≤ s'.elapsed := by
  obtain ⟨mode, action, next, -, happly, rfl⟩ := step_eq_ok.1 h
  have hnext : next.elapsed = _ := elapsed_of_apply hinv.sound.name happly
  simp only [hnext]
  cases action <;> simp only [reached?, Option.getD_none, Option.getD_some, le_refl,
    Nat.le_add_right]
  split
  · exact Nat.le_refl _
  · exact Nat.le_add_right _ _

/-- Time does not run backwards. -/
theorem elapsed_le_of_run (hinv : s.Inv) (h : s.run meter position cs = .ok s') :
    s.elapsed ≤ s'.elapsed := by
  induction cs generalizing s position with
  | nil =>
    cases h
    exact Nat.le_refl _
  | cons c cs ih =>
    obtain ⟨next, hstep, h⟩ := Outcome.bind_eq_ok.1 h
    exact (elapsed_le_of_step hinv hstep).trans (ih (hinv.step hstep) h)

/-! ## What is overrun -/

theorem OverrunsAt.lt_elapsed (hinv : s.Inv) (hover : OverrunsAt meter before s c)
    (h : s.step meter position c = .ok s') : maxTicks < before.ticks + s'.elapsed := by
  obtain ⟨mode, action, ticks, htransition, hreached, hover⟩ := hover
  obtain ⟨mode', action', next, htransition', happly, rfl⟩ := step_eq_ok.1 h
  obtain ⟨rfl, rfl⟩ := Prod.mk.inj (Option.some.inj (htransition.symm.trans htransition'))
  have hnext := elapsed_of_apply hinv.sound.name happly
  rw [hreached, Option.getD_some] at hnext
  simpa only [hnext] using hover

/-- What overruns somewhere in a text that is read overruns at its end. -/
theorem OverrunsIn.lt_elapsed (hinv : s.Inv) (hover : OverrunsIn meter before s position cs)
    (h : s.run meter position cs = .ok s') : maxTicks < before.ticks + s'.elapsed := by
  obtain ⟨front, c, rest, reader, rfl, hreader, hover⟩ := hover
  rw [run_append] at h
  obtain ⟨reader', hreader', h⟩ := Outcome.bind_eq_ok.1 h
  obtain rfl : reader = reader' := Except.ok.inj (hreader.symm.trans hreader')
  obtain ⟨next, hstep, hrun⟩ := Outcome.bind_eq_ok.1 h
  have hinv' := hinv.run hreader
  have hnext := hover.lt_elapsed hinv' hstep
  have hle := elapsed_le_of_run (hinv'.step hstep) hrun
  omega

/-- A track lasts the time of the reader that gives it, and of the rest in its hand. -/
theorem ticks_of_finish {track : Track} {length : Nat} (hinv : s.Inv)
    (h : s.finish meter length = .ok track) :
    track.ticks = s.elapsed + s.restUnits * meter.ticksPerUnit := by
  obtain ⟨last, hlast, rfl, helapsed⟩ := hinv.finish h
  rw [← hlast.elapsed, helapsed]

end Scan

variable {meter : Meter} {before track : Track} {text front : List Char} {place : Nat}
  {cause : Misreading} {c : Char}

/-- In a text that is misread, what overruns is complete where it is misread. -/
theorem Scan.OverrunsIn.completedBy (hover : Scan.OverrunsIn meter before {} 0 text)
    (h : read meter text = .error (.misread place cause)) :
    ∃ phrases, CompletedBy text place phrases ∧
      maxTicks < before.ticks + (phrases.map (Phrase.ticks meter)).sum := by
  obtain ⟨front, c, rest, reader, rfl, hreader, mode, action, ticks, htransition, hreached, hover⟩ :=
    hover
  have hinv : reader.Inv := Scan.inv_initial.run hreader
  have hread : reader.HasRead meter front := Scan.hasRead_initial.run Scan.inv_initial hreader
  obtain ⟨hc, phrases, hspells, rfl⟩ := hread.spells_of_reached htransition hreached
  have hname : reader.name = [] := by
    refine hinv.clear.name fun hnotes => ?_
    rcases Scan.mode_of_reached htransition hreached with ⟨hmode, -⟩ | ⟨hmode, -⟩
    · rw [hnotes] at hmode
      cases hmode
    · rw [hnotes] at hmode
      cases hmode
  have hfront := length_le_of_read_misread h hreader hname
  refine ⟨phrases, ⟨front ++ [c], ⟨rest, by simp⟩, ?_, ?_, hspells⟩, hover⟩
  · simpa using hfront
  · simpa using hc

/-! ## Behind a separator -/

theorem transition_separator (hc : c = ',' ∨ c = ';') :
    transition .idle (.ofChar c) = some (.idle, .skip) ∧
      transition .rest (.ofChar c) = some (.idle, .finishRest) ∧
        transition .closed (.ofChar c) = some (.idle, .skip) := by
  rcases hc with rfl | rfl
  · decide
  · decide

/-- **Behind a score and a separator stands a fresh reader.** -/
theorem follows_separator (h : read meter text = .ok track) (hc : c = ',' ∨ c = ';') :
    ∃ later, Scan.run meter {} 0 (text ++ [c]) = .ok later ∧
      Scan.Follows track (text.length + 1) {} later := by
  obtain ⟨hidle, hrest, hclosed⟩ := transition_separator hc
  obtain ⟨last, hrun, hfinish⟩ := Outcome.bind_eq_ok.1 h
  have hinv : last.Inv := Scan.inv_initial.run hrun
  -- it is enough to see what is done with the separator
  have hstep : ∀ action next, transition last.mode (.ofChar c) = some (.idle, action) →
      last.apply meter (0 + text.length) action = .ok next → next.events.toList = track →
      ∃ later, Scan.run meter {} 0 (text ++ [c]) = .ok later ∧
        Scan.Follows track (text.length + 1) {} later := by
    intro action next htransition happly hevents
    have hlater : last.step meter (0 + text.length) c = .ok { next with mode := .idle } :=
      Scan.step_eq_ok.2 ⟨.idle, action, next, htransition, happly, rfl⟩
    have hnext := hinv.step hlater
    have helapsed : next.elapsed = track.ticks := by
      rw [← hevents]
      exact hnext.sound.elapsed
    refine ⟨{ next with mode := .idle }, ?_, rfl, hnext.clear.name (by simp),
      fun hne => absurd rfl hne, hnext.clear.pending (Or.inl rfl), hnext.clear.length (by simp),
      hnext.clear.rest (by simp), helapsed, hevents.trans (List.append_nil track).symm⟩
    rw [Scan.run_append]
    exact Outcome.bind_eq_ok.2 ⟨last, hrun, Outcome.bind_eq_ok.2 ⟨_, hlater, rfl⟩⟩
  obtain ⟨next, hevents, ⟨hmode | hmode, rfl⟩ | ⟨hmode, hnext⟩⟩ := Scan.finish_eq_ok.1 hfinish
  · exact hstep .skip next (hmode ▸ hidle) rfl hevents
  · exact hstep .skip next (hmode ▸ hclosed) rfl hevents
  · exact hstep .finishRest next (hmode ▸ hrest) hnext hevents

/-- What a score gives behind a separator agrees with what it gives alone. -/
theorem agrees_read (h : read meter front = .ok before) (hc : c = ',' ∨ c = ';') (text : List Char) :
    Agrees (front.length + 1) (fun track track' => track' = before ++ track)
      (Scan.OverrunsIn meter before {} 0 text ∨
        ∃ last, Scan.run meter {} 0 text = .ok last ∧ Scan.OverrunsAtEnd meter before last)
      (read meter text) (read meter (front ++ c :: text)) := by
  obtain ⟨later, hrun, hfollows⟩ := follows_separator h hc
  have hread : read meter (front ++ c :: text) =
      later.run meter (0 + (front.length + 1)) text >>= fun last =>
        last.finish meter (text.length + (front.length + 1)) := by
    have hsplit : front ++ c :: text = (front ++ [c]) ++ text := by simp
    have hlength : (front ++ c :: text).length = text.length + (front.length + 1) := by
      simp only [List.length_append, List.length_cons]
      omega
    rw [read, hlength, hsplit, Scan.run_append, hrun, List.length_append]
    rfl
  rw [hread]
  refine ((hfollows.run meter 0 text).imp Or.inl).bind fun last last' hlast hends => ?_
  exact (hends.finish meter text.length).imp fun hover => Or.inr ⟨last, hlast, hover⟩

/-- What overruns in a score that is read overruns its whole length. -/
theorem lt_ticks_of_overruns (h : read meter text = .ok track)
    (hover : Scan.OverrunsIn meter before {} 0 text ∨
      ∃ last, Scan.run meter {} 0 text = .ok last ∧ Scan.OverrunsAtEnd meter before last) :
    maxTicks < before.ticks + track.ticks := by
  obtain ⟨last, hrun, hfinish⟩ := Outcome.bind_eq_ok.1 h
  rw [Scan.ticks_of_finish (Scan.inv_initial.run hrun) hfinish]
  rcases hover with hover | ⟨last', hlast', -, hover⟩
  · have hlast := hover.lt_elapsed Scan.inv_initial hrun
    omega
  · obtain rfl : last = last' := Except.ok.inj (hrun.symm.trans hlast')
    exact hover

/-- **Scores compose at separators.** Behind a score that is read and a separator, a score adds its
events; if it is misread, it is misread there, so many characters further on; and it overflows if it did
alone, or if the ticks of both scores exceed the limit, as far as the second is complete. -/
theorem read_separator (meter : Meter) (front text : List Char) (c : Char) (before : Track)
    (hc : c = ',' ∨ c = ';') (h : read meter front = .ok before) :
    (∀ track, read meter text = .ok track →
      (before.ticks + track.ticks ≤ maxTicks →
        read meter (front ++ c :: text) = .ok (before ++ track)) ∧
      (maxTicks < before.ticks + track.ticks →
        ∃ ticks, read meter (front ++ c :: text) = .error (.overflow ticks))) ∧
    (∀ position cause, read meter text = .error (.misread position cause) →
      read meter (front ++ c :: text) = .error (.misread (position + front.length + 1) cause) ∨
      (∃ ticks, read meter (front ++ c :: text) = .error (.overflow ticks)) ∧
        ∃ phrases, CompletedBy text position phrases ∧
          maxTicks < before.ticks + (phrases.map (Phrase.ticks meter)).sum) ∧
    (∀ ticks, read meter text = .error (.overflow ticks) →
      ∃ ticks, read meter (front ++ c :: text) = .error (.overflow ticks)) := by
  have hagrees := agrees_read h hc text
  generalize hjoined : read meter (front ++ c :: text) = joined at hagrees
  refine ⟨fun track htrack => ?_, fun position cause hmisread => ?_, fun ticks hoverflow => ?_⟩
  · rw [htrack] at hagrees
    cases hagrees with
    | ok heq =>
      subst heq
      refine ⟨fun _ => rfl, fun hlong => ?_⟩
      have hlimit := (read_spec hjoined).1
      rw [Track.ticks_append] at hlimit
      omega
    | exceeded hover =>
      have hlong := lt_ticks_of_overruns htrack hover
      exact ⟨fun hle => absurd hlong (Nat.not_lt.2 hle), fun _ => ⟨_, rfl⟩⟩
  · rw [hmisread] at hagrees
    cases hagrees with
    | misread => exact Or.inl rfl
    | exceeded hover =>
      refine Or.inr ⟨⟨_, rfl⟩, ?_⟩
      -- a text that is misread has no rest at its end that could be too long
      rcases hover with hover | ⟨last, hlast, hmode, -⟩
      · exact hover.completedBy hmisread
      · rcases Outcome.bind_eq_error.1 hmisread with hrun | ⟨last', hlast', hfinish⟩
        · rw [hlast] at hrun
          cases hrun
        · obtain rfl : last = last' := Except.ok.inj (hlast.symm.trans hlast')
          exact absurd hmode (Scan.finish_eq_misread hfinish).1
  · rw [hoverflow] at hagrees
    cases hagrees with
    | overflow => exact ⟨_, rfl⟩
    | exceeded hover => exact ⟨_, rfl⟩

/-- A rest that ends a score ends at the separator. Behind a score of 16777200 ticks a rest of 240 is too
long: it is that, and not the unknown note behind it, which is reported. -/
theorem read_separator_behind_rest_and_at_limit :
    let meter : Meter := ⟨240, 720⟩
    let unit := "(c)[".toList ++ List.replicate 273 'H' ++ "LP] ".toList
    let text := "Y;(d.zz)[L]".toList
    read meter "(c)[N],QV".toList = .ok [.on 60, .delay 960, .off 60, .delay 63360] ∧
      read meter "(d@e)[K]".toList =
        .ok [.on 62, .delay 768, .on 64, .delay 6912, .off 62, .off 64] ∧
      read meter ("(c)[N],QV".toList ++ ';' :: "(d@e)[K]".toList) =
        .ok ([.on 60, .delay 960, .off 60, .delay 63360] ++
          [.on 62, .delay 768, .on 64, .delay 6912, .off 62, .off 64]) ∧
      ∃ before, read meter unit = .ok before ∧
        read meter text = .error (.misread 5 (.unknownNote "zz")) ∧
        (∃ ticks, read meter (unit ++ ',' :: text) = .error (.overflow ticks)) ∧
        ∃ phrases, CompletedBy text 5 phrases ∧
          maxTicks < before.ticks + (phrases.map (Phrase.ticks meter)).sum := by
  intro meter unit text
  have hrest : read meter "(c)[N],QV".toList = .ok [.on 60, .delay 960, .off 60, .delay 63360] := by
    decide +kernel
  have hroll : read meter "(d@e)[K]".toList =
      .ok [.on 62, .delay 768, .on 64, .delay 6912, .off 62, .off 64] := by
    decide +kernel
  have hunknown : read meter text = .error (.misread 5 (.unknownNote "zz")) := by decide +kernel
  have hlong : read meter (unit ++ ',' :: text) = .error (.overflow 16777440) := by decide +kernel
  have hunit : (read meter unit).toOption.isSome = true := by decide +kernel
  refine ⟨hrest, hroll, ?_, ?_⟩
  · exact ((read_separator meter _ _ ';' _ (Or.inr rfl) hrest).1 _ hroll).1 (by decide)
  · cases hbefore : read meter unit with
    | error fault =>
      rw [hbefore] at hunit
      cases hunit
    | ok before =>
      have hcases := (read_separator meter unit text ',' before (Or.inl rfl) hbefore).2.1 5 _ hunknown
      rcases hcases with hmisread | ⟨hoverflow, hcompleted⟩
      · rw [hlong] at hmisread
        cases hmisread
      · exact ⟨before, rfl, hunknown, hoverflow, hcompleted⟩

end RhythmTiles.Score
