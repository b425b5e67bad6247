import Mathlib
import RhythmTiles.Proofs.Track.Silence

/-!
# Bringing a track to a length

The walk over two rows of delays computes the difference of their sums (`surplus_eq`), so for tracks
that a signed word can measure `Track.difference` is exact (`difference_eq`). Taking ticks back from
the end moves every event to its old tick or to the new length, whichever comes first, and so cuts
every note there (`readNotes_takeBack`). Hence a track always fits a reference: it has the length of
the reference then, and what sounds of it is what sounded before that length (`fit_ok`).
-/

namespace RhythmTiles

/-- A note with nothing of it beyond a limit. -/
def Span.cut (limit : Nat) (span : Span) : Span :=
  { span with start := min span.start limit, stop := min span.stop limit }

namespace Track

/-- The notes of a track that start before a limit, ended there at the latest, without the empty
ones. -/
def notesWithin (limit : Nat) (track : Track) : List Span :=
  ((track.notes.filter fun span => span.start < limit).map fun span =>
    { span with stop := min span.stop limit }).filter Span.sounds

/-- What is played within a limit lasts, is over by then, and comes from a note of the track. -/
theorem exists_of_mem_notesWithin {limit : Nat} {track : Track} {span : Span}
    (h : span ∈ track.notesWithin limit) :
    span.start < span.stop ∧ span.stop ≤ limit ∧ ∃ note ∈ track.notes, note.pitch = span.pitch := by
  obtain ⟨hcut, hsounds⟩ := List.mem_filter.1 h
  obtain ⟨note, hnote, rfl⟩ := List.mem_map.1 hcut
  exact ⟨of_decide_eq_true hsounds, Nat.min_le_right _ _, note, (List.mem_filter.1 hnote).1, rfl⟩

/-- A note that starts at the limit or behind it is empty once it is cut. -/
theorem notesWithin_eq_cut (limit : Nat) (track : Track) :
    track.notesWithin limit = (track.notes.map (Span.cut limit)).filter Span.sounds := by
  unfold notesWithin
  induction track.notes with
  | nil => rfl
  | cons span spans ih =>
    by_cases hstart : span.start < limit
    · have hcut : Span.cut limit span = { span with stop := min span.stop limit } := by
        unfold Span.cut
        rw [Nat.min_eq_left (Nat.le_of_lt hstart)]
      simp only [List.filter_cons, hstart, decide_true, if_true, List.map_cons, hcut, ih]
    · have hempty : (Span.cut limit span).sounds = false := by
        unfold Span.sounds Span.cut
        exact decide_eq_false (by simp only; omega)
      simp only [List.filter_cons, hstart, decide_false, Bool.false_eq_true, if_false,
        List.map_cons, hempty, ih]

/-- In a track that ends before the limit nothing is cut. -/
theorem map_cut_notes {limit : Nat} {track : Track} (h : ticks track ≤ limit) :
    track.notes.map (Span.cut limit) = track.notes := by
  have hcut : ∀ span ∈ track.notes, Span.cut limit span = span := by
    intro span hspan
    obtain ⟨hle, hstop⟩ := readNotes_bounds (by simp) hspan
    unfold Span.cut
    rw [Nat.min_eq_left (by omega), Nat.min_eq_left (by omega)]
  rw [List.map_congr_left hcut, List.map_id']

/-! ## The difference of two tracks -/

/-- Walking two rows of delays in step finds the difference of their sums. -/
theorem surplus_eq (rs ts : List Nat) : surplus rs ts = (ts.sum : Int) - rs.sum := by
  fun_induction surplus rs ts with
  | case1 ts => rw [List.sum_nil, Int.natCast_zero, Int.sub_zero, List.sum_eq_foldl_nat]
  | case2 rs => rw [List.sum_nil, Int.natCast_zero, Int.zero_sub, List.sum_eq_foldl_nat]
  | case3 r rs ts ih =>
    simp only [ih, List.sum_cons]
    omega
  | case4 r rs t ts hne hlt ih =>
    simp only [ih, List.sum_cons]
    omega
  | case5 r rs t ts hne hle ih =>
    simp only [ih, List.sum_cons]
    omega

theorem sum_runs (track : Track) : (runs track).sum = ticks track := by
  induction track with
  | nil => rfl
  | cons event track ih =>
    unfold runs at ih ⊢
    by_cases hpos : 0 < event.ticks
    · rw [List.map_cons, List.filter_cons_of_pos (by simpa using hpos), List.sum_cons, ih,
        ticks_cons]
    · have hzero : event.ticks = 0 := by omega
      rw [List.map_cons, List.filter_cons_of_neg (by simpa using hzero), ih, ticks_cons, hzero,
        Nat.zero_add]

/-- Between tracks that a signed word can measure the difference is exact. -/
theorem difference_eq {reference track : Track} (href : ticks reference < 2 ^ 63)
    (htrack : ticks track < 2 ^ 63) :
    difference reference track = (ticks track : Int) - ticks reference := by
  unfold difference
  rw [surplus_eq, sum_runs, sum_runs]
  exact Int.bmod_eq_of_le_mul_two (by omega) (by omega)

/-! ## Taking ticks back -/

/-- A track that has the ticks gives them up, no more and no less. -/
theorem takeBack_exact (amount : Nat) (track : Track) :
    ticks (takeBack amount track).1 + amount = ticks track + (takeBack amount track).2 ∧
      (takeBack amount track).2 = amount - ticks track := by
  induction track with
  | nil => simp [takeBack]
  | cons event track ih =>
    obtain ⟨hsum, hmissing⟩ := ih
    cases event with
    | delay t =>
      simp only [takeBack, ticks_cons, Event.ticks]
      omega
    | on p | off p | silent =>
      simp only [takeBack, ticks_cons, Event.ticks]
      omega

/-- Closing a note does not look at the starts. -/
theorem closeNote_map (f : Nat → Nat) (pitch : Pitch) (opened : List (Pitch × Nat)) :
    closeNote pitch (opened.map (Prod.map id f)) =
      (closeNote pitch opened).map (Prod.map f (List.map (Prod.map id f))) := by
  induction opened with
  | nil => rfl
  | cons note opened ih =>
    obtain ⟨p, start⟩ := note
    by_cases hp : p = pitch
    · simp [closeNote, hp]
    · simp [closeNote, hp, ih, Option.map_map, Function.comp_def]

/-- Taking ticks back cuts every note at the new length. In the rest of a track that starts at
`now`, the amount to take and the new length add up to the tick at which the rest ends. -/
theorem readNotes_takeBack {limit amount now : Nat} {track : Track}
    (h : limit + amount = now + ticks track) (opened : List (Pitch × Nat)) :
    readNotes (min now limit) (opened.map (Prod.map id (min · limit))) (takeBack amount track).1 =
      (readNotes now opened track).map (Span.cut limit) := by
  induction track generalizing now opened with
  | nil => rfl
  | cons event track ih =>
    cases event with
    | on p =>
      have ih := ih (by simpa [Event.ticks] using h) ((p, now) :: opened)
      simpa [takeBack, readNotes] using ih
    | off p =>
      have hrest : limit + amount = now + ticks track := by simpa [Event.ticks] using h
      simp only [takeBack, readNotes, closeNote_map]
      cases closeNote p opened with
      | none => exact ih hrest opened
      | some found =>
        simp only [Option.map_some, Prod.map, List.map_cons, Span.cut]
        exact congrArg _ (ih hrest found.2)
    | delay t =>
      have hrest : limit + amount = now + t + ticks track := by
        simp only [ticks_cons, Event.ticks] at h
        omega
      have hmissing := (takeBack_exact amount track).2
      -- the delay ends where it ended before, or at the limit
      have hnow : min now limit + (t - min t (takeBack amount track).2) = min (now + t) limit := by
        omega
      simp only [takeBack, readNotes, hnow]
      exact ih hrest opened
    | silent => exact ih (by simpa [Event.ticks] using h) opened

theorem notes_takeBack {limit amount : Nat} {track : Track} (h : limit + amount = ticks track) :
    (takeBack amount track).1.notes = track.notes.map (Span.cut limit) := by
  have hread := readNotes_takeBack (h.trans (Nat.zero_add _).symm) []
  rwa [Nat.zero_min, List.map_nil] at hread

/-! ## Fitting -/

/-- **Every track fits.** It gets the length of the reference, and what sounds of it is what sounded
before that length. -/
theorem fit_ok {reference track : Track} (href : ticks reference < 2 ^ 63)
    (htrack : ticks track < 2 ^ 63) :
    ∃ fitted, fit reference track = .ok fitted ∧ ticks fitted = ticks reference ∧
      (silenceEmpty fitted).notes = track.notesWithin (ticks reference) := by
  have hd := difference_eq href htrack
  unfold fit
  rw [hd]
  by_cases hlong : ticks reference < ticks track
  · -- too long: the ticks are there to be taken
    have hamount : ((ticks track : Int) - ticks reference).toNat = ticks track - ticks reference := by
      omega
    obtain ⟨hsum, hmissing⟩ := takeBack_exact (ticks track - ticks reference) track
    have hzero : (takeBack (ticks track - ticks reference) track).2 = 0 := by omega
    have hnotes := notes_takeBack (Nat.add_sub_cancel' (Nat.le_of_lt hlong))
    refine ⟨silenceEmpty (takeBack (ticks track - ticks reference) track).1, ?_, ?_, ?_⟩
    · simp only [hamount, trim, hzero, if_true]
      rw [if_pos (by omega)]
    · rw [ticks_silenceEmpty]
      omega
    · rw [notes_silenceEmpty, notes_silenceEmpty, List.filter_filter, notesWithin_eq_cut, hnotes]
      simp only [Bool.and_self]
  · have hcut := map_cut_notes (Nat.le_of_not_lt hlong)
    rw [if_neg (by omega)]
    by_cases hshort : ticks track < ticks reference
    · -- too short: a delay at the end is not heard
      refine ⟨_, if_pos (by omega), ?_, ?_⟩
      · simp only [ticks_append, ticks_cons, ticks_nil, Event.ticks]
        omega
      · rw [notes_silenceEmpty, notesWithin_eq_cut, hcut]
        exact congrArg (List.filter Span.sounds) (readNotes_append_delay 0 [] track _)
    · refine ⟨_, if_neg (by omega), by omega, ?_⟩
      rw [notes_silenceEmpty, notesWithin_eq_cut, hcut]

/-- A track that is as long as the reference stays as it is. -/
theorem fit_of_ticks_eq {reference track : Track} (href : ticks reference < 2 ^ 63)
    (h : ticks track = ticks reference) : fit reference track = .ok track := by
  have hd : difference reference track = 0 := by
    rw [difference_eq href (h ▸ href), h, Int.sub_self]
  unfold fit
  rw [hd]
  rfl

/-- The reference itself is heard as it is, but for its empty notes. -/
theorem notes_silenceEmpty_self (track : Track) :
    (silenceEmpty track).notes = track.notesWithin (ticks track) := by
  rw [notes_silenceEmpty, notesWithin_eq_cut, map_cut_notes (Nat.le_refl _)]

end Track

end RhythmTiles
