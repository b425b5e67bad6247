import RhythmTiles.Proofs.Track.Trim

/-!
# What a trim leaves of a track

A trim takes ticks back from the last delay on and silences empty notes from the first event on. Neither
adds or removes an event (`trimsTo_trim`). Every event of a trimmed track stands at its old tick or at
the new end, whichever comes first (`ticks_take_trim`), and the notes are cut there (`notes_trim`). A
track that lacks the ticks loses all its delays and nothing else (`trim_of_lt`). Main theorem:
`trim_cuts_or_empties`.
-/

namespace RhythmTiles

namespace Event

/-- What a trim may make of an event: a delay may get shorter, a start or an end may fall silent. -/
inductive TrimsTo : Event → Event → Prop where
  | keep (event : Event) : TrimsTo event event
  | shorten {long short : Nat} (h : short ≤ long) : TrimsTo (.delay long) (.delay short)
  | muteOn (pitch : Pitch) : TrimsTo (.on pitch) .silent
  | muteOff (pitch : Pitch) : TrimsTo (.off pitch) .silent

/-- What is shortened or kept may then fade. -/
theorem TrimsTo.fades {event shorter faded : Event} (h : TrimsTo event shorter)
    (hfade : Fades shorter faded) : TrimsTo event faded := by
  rcases hfade with rfl | rfl
  · exact h
  · cases h with
    | keep =>
      cases event with
      | on p => exact .muteOn p
      | off p => exact .muteOff p
      | delay t => exact .keep (.delay t)
      | silent => exact .keep .silent
    | shorten h => exact .shorten h
    | muteOn p => exact .muteOn p
    | muteOff p => exact .muteOff p

/-- The event without its time. -/
def emptied : Event → Event
  | delay _ => delay 0
  | e => e

end Event

namespace Track

theorem ticks_take_le (track : Track) (i : Nat) : ticks (track.take i) ≤ ticks track := by
  have hsplit := ticks_append (track.take i) (track.drop i)
  rw [List.take_append_drop] at hsplit
  omega

/-! ## Taking ticks back -/

theorem trimsTo_takeBack (amount : Nat) (track : Track) :
    List.Forall₂ Event.TrimsTo track (takeBack amount track).1 := by
  induction track with
  | nil => exact .nil
  | cons event track ih =>
    cases event with
    | delay t => exact .cons (.shorten (Nat.sub_le _ _)) ih
    | on p | off p | silent => exact .cons (.keep _) ih

/-- An event stands where it stood, or where the track ends now. -/
theorem ticks_take_takeBack (amount : Nat) (track : Track) (i : Nat) :
    ticks ((takeBack amount track).1.take i) = min (ticks (track.take i)) (ticks track - amount) := by
  induction track generalizing i with
  | nil => simp [takeBack]
  | cons event track ih =>
    cases i with
    | zero => simp
    | succ i =>
      have hbefore := ih i
      have hmissing := (takeBack_exact amount track).2
      have hle := ticks_take_le track i
      cases event with
      | delay t =>
        simp only [takeBack, List.take_succ_cons, ticks_cons, Event.ticks, hbefore, hmissing]
        omega
      | on p | off p | silent =>
        simp only [takeBack, List.take_succ_cons, ticks_cons, Event.ticks, hbefore, Nat.zero_add]

/-- A track with no more ticks than are taken is left with none. -/
theorem takeBack_of_le {amount : Nat} {track : Track} (h : ticks track ≤ amount) :
    (takeBack amount track).1 = track.map Event.emptied := by
  induction track with
  | nil => rfl
  | cons event track ih =>
    have hmissing := (takeBack_exact amount track).2
    rw [ticks_cons] at h
    have hrest := ih (by omega)
    cases event with
    | delay t =>
      have hall : t - min t (takeBack amount track).2 = 0 := by
        simp only [Event.ticks] at h
        omega
      simp only [takeBack, List.map_cons, Event.emptied, hall, hrest]
    | on p | off p | silent => simp only [takeBack, List.map_cons, Event.emptied, hrest]

/-! ## Trimming -/

theorem trimsTo_of_fades {track shorter faded : Track}
    (h : List.Forall₂ Event.TrimsTo track shorter) (hfades : List.Forall₂ Event.Fades shorter faded) :
    List.Forall₂ Event.TrimsTo track faded := by
  induction h generalizing faded with
  | nil =>
    cases hfades
    exact .nil
  | cons hone _ ih =>
    obtain ⟨event, rest, hevent, hrest, rfl⟩ := List.forall₂_cons_left_iff.1 hfades
    exact .cons (hone.fades hevent) (ih hrest)

section

variable (track : Track) (amount : Nat)

theorem missing_trim : (track.trim amount).missing = amount - ticks track :=
  (takeBack_exact amount track).2

variable {track amount}

theorem trim_of_le (h : amount ≤ ticks track) :
    (track.trim amount).track = silenceEmpty (takeBack amount track).1 := by
  have hmissing : (takeBack amount track).2 = 0 := by
    rw [(takeBack_exact amount track).2]
    omega
  simp only [trim, hmissing, if_true]

/-- A track that lacks the ticks loses its delays, and nothing falls silent. -/
theorem trim_of_lt (h : ticks track < amount) :
    (track.trim amount).track = track.map Event.emptied := by
  have hmissing : (takeBack amount track).2 ≠ 0 := by
    rw [(takeBack_exact amount track).2]
    omega
  simp only [trim, hmissing, if_false, takeBack_of_le (Nat.le_of_lt h)]

theorem trimsTo_trim (h : amount ≤ ticks track) :
    List.Forall₂ Event.TrimsTo track (track.trim amount).track := by
  rw [trim_of_le h]
  exact trimsTo_of_fades (trimsTo_takeBack amount track) (fades_silenceEmpty _)

theorem ticks_take_trim (h : amount ≤ ticks track) (i : Nat) :
    ticks ((track.trim amount).track.take i) =
      min (ticks (track.take i)) (ticks track - amount) := by
  rw [trim_of_le h, ← ticks_take_takeBack]
  exact ticks_of_fades (List.forall₂_take i (fades_silenceEmpty _))

theorem notes_trim (h : amount ≤ ticks track) :
    (track.trim amount).track.notes =
      (track.notes.map (Span.cut (ticks track - amount))).filter Span.sounds := by
  rw [trim_of_le h, notes_silenceEmpty, notes_takeBack (Nat.sub_add_cancel h)]

end

/-- **A trim cuts a track at its new end, or leaves it without time.** It succeeds when the track has
the ticks; otherwise it says how many of them were asked for and how many were not there. -/
theorem trim_cuts_or_empties (track : Track) (amount : Nat) :
    ((track.trim amount).missing = 0 ↔ amount ≤ track.ticks) ∧
    (amount ≤ track.ticks →
      (track.trim amount).track.length = track.length ∧
      (∀ i, Track.ticks ((track.trim amount).track.take i) =
        min (Track.ticks (track.take i)) (track.ticks - amount)) ∧
      List.Forall₂ Event.TrimsTo track (track.trim amount).track ∧
      (track.trim amount).track.notes =
        (track.notes.map (Span.cut (track.ticks - amount))).filter Span.sounds) ∧
    (track.ticks < amount →
      (track.trim amount).missing = amount - track.ticks ∧
      Shortage.message ⟨amount, (track.trim amount).missing⟩ =
        s!"cannot remove {amount} ticks, {amount - track.ticks} short" ∧
      (track.trim amount).track = track.map Event.emptied) := by
  refine ⟨?_, fun h => ⟨?_, ticks_take_trim h, trimsTo_trim h, notes_trim h⟩, fun h => ?_⟩
  · rw [missing_trim]
    omega
  · exact (trimsTo_trim h).length_eq.symm
  · refine ⟨missing_trim track amount, ?_, trim_of_lt h⟩
    rw [missing_trim]
    rfl

/-- A cut in the middle of a delay, through two notes of one pitch, the inner one ended first; behind it
stand an end of nothing, a delay of no time and a note of no time. -/
theorem trim_cuts_or_empties_nested :
    let track : Track := [.off 60, .on 60, .delay 10, .on 60, .delay 0, .on 62, .delay 6, .off 60,
      .off 62, .delay 4, .off 60, .on 64, .off 64]
    (6 ≤ track.ticks ∧ (track.trim 6).track.notes = [⟨60, 10, 14⟩, ⟨62, 10, 14⟩, ⟨60, 0, 14⟩] ∧
      Track.ticks ((track.trim 6).track.take 8) = 14) ∧
    track.ticks < 23 ∧
      Shortage.message ⟨23, (track.trim 23).missing⟩ = "cannot remove 23 ticks, 3 short" := by
  intro track
  have hticks : track.ticks = 20 := rfl
  have hcut : 6 ≤ track.ticks := by decide
  have hlack : track.ticks < 23 := by decide
  obtain ⟨-, hposition, -, hnotes⟩ := (trim_cuts_or_empties track 6).2.1 hcut
  obtain ⟨-, hmessage, -⟩ := (trim_cuts_or_empties track 23).2.2 hlack
  refine ⟨⟨hcut, ?_, ?_⟩, hlack, ?_⟩
  · rw [hnotes]
    decide
  · rw [hposition]
    rfl
  · rw [hmessage, hticks]
    rfl

end Track

end RhythmTiles
