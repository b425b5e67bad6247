import RhythmTiles.Proofs.Track.Silence

/-!
# Tracks that leave no note open

A track is closed when every end in it finds an open note of its pitch, and no note is open at its
end (`Closed`). Which note an end takes does not matter for that: it is enough to count, for each
pitch alone, how many notes are open (`closed_iff`). So closed tracks can be joined
(`Closed.append`), and a closed track stays closed when a start is silenced with the first end of its
pitch (`Closed.silenceEmpty`), when ticks are taken back from its end (`Closed.trim`), and when it
loses its sound.
-/

namespace RhythmTiles

/-- The pitch of an end. -/
def Event.ended? : Event → Option Pitch
  | off p => some p
  | _ => none

namespace Track

/-- The notes that are open when a track has been read from `now` on, with some notes open at first.
Nothing where an end finds no open note of its pitch. -/
def openAfter? (now : Nat) (opened : List (Pitch × Nat)) : Track → Option (List (Pitch × Nat))
  | [] => some opened
  | .on p :: track => openAfter? now ((p, now) :: opened) track
  | .off p :: track => (closeNote p opened).bind fun found => openAfter? now found.2 track
  | .delay t :: track => openAfter? (now + t) opened track
  | .silent :: track => openAfter? now opened track

/-- Every end finds an open note of its pitch, and at the end of the track no note is open. -/
def Closed (track : Track) : Prop := openAfter? 0 [] track = some []

/-- How many notes of a pitch are open behind a track, with `count` open before it. Nothing where an
end of the pitch finds none. -/
def countAfter? (pitch : Pitch) (count : Nat) : Track → Option Nat
  | [] => some count
  | .on p :: track => countAfter? pitch (if p = pitch then count + 1 else count) track
  | .off p :: track =>
    if p = pitch then if count = 0 then none else countAfter? pitch (count - 1) track
    else countAfter? pitch count track
  | .delay _ :: track => countAfter? pitch count track
  | .silent :: track => countAfter? pitch count track

/-- Where no end finds nothing, the notes that are read are the ends, in order. -/
theorem map_pitch_readNotes {now : Nat} {opened rest : List (Pitch × Nat)} {track : Track}
    (h : openAfter? now opened track = some rest) :
    (readNotes now opened track).map Span.pitch = track.filterMap Event.ended? := by
  induction track generalizing now opened with
  | nil => rfl
  | cons event track ih =>
    cases event with
    | on p => exact ih h
    | off p =>
      obtain ⟨found, hclose, h⟩ := Option.bind_eq_some_iff.1 h
      simp [readNotes, hclose, Event.ended?, ih h]
    | delay t => exact ih h
    | silent => exact ih h

/-- Every end of a closed track ends a note. -/
theorem Closed.map_pitch_notes {track : Track} (h : Closed track) :
    track.notes.map Span.pitch = track.filterMap Event.ended? :=
  map_pitch_readNotes h

/-! ## Counting open notes -/

/-- Reading a track comes to its end, with so many open notes of each pitch, just when counting does
for each pitch. -/
theorem openAfter?_iff (left : Pitch → Nat) (now : Nat) (opened : List (Pitch × Nat))
    (track : Track) :
    (∃ rest, openAfter? now opened track = some rest ∧ ∀ p, (startsOf p rest).length = left p) ↔
      ∀ p, countAfter? p (startsOf p opened).length track = some (left p) := by
  induction track generalizing now opened with
  | nil => simp [openAfter?, countAfter?]
  | cons event track ih =>
    cases event with
    | on q =>
      have hcount : ∀ p, (startsOf p ((q, now) :: opened)).length =
          if q = p then (startsOf p opened).length + 1 else (startsOf p opened).length := by
        intro p
        by_cases hp : q = p <;> simp [startsOf, hp]
      simp only [openAfter?, countAfter?, ih, hcount]
    | off q =>
      cases hclose : closeNote q opened with
      | none =>
        -- the count of the pitch itself has no end either
        have hnone := closeNote_eq_none.1 hclose
        constructor
        · rintro ⟨rest, hrest, -⟩
          simp [openAfter?, hclose] at hrest
        · intro h
          have hq := h q
          simp [countAfter?, hnone] at hq
      | some found =>
        obtain ⟨start, rest⟩ := found
        obtain ⟨hsame, hother⟩ := startsOf_of_closeNote hclose
        simp only [openAfter?, hclose, Option.bind_some, ih]
        refine forall_congr' fun p => ?_
        by_cases hp : q = p
        · subst hp
          simp [countAfter?, hsame]
        · rw [countAfter?, if_neg hp, hother p fun e => hp e.symm]
    | delay t => simp only [openAfter?, countAfter?, ih]
    | silent => simp only [openAfter?, countAfter?, ih]

theorem eq_nil_of_startsOf {opened : List (Pitch × Nat)}
    (h : ∀ p, (startsOf p opened).length = 0) : opened = [] := by
  cases opened with
  | nil => rfl
  | cons note opened =>
    have hnote := h note.1
    simp [startsOf] at hnote

/-- From any time on, no note is left open just when no pitch is. -/
theorem openAfter?_eq_nil_iff (now : Nat) {track : Track} :
    openAfter? now [] track = some [] ↔ ∀ p, countAfter? p 0 track = some 0 := by
  have hiff := openAfter?_iff (fun _ => 0) now [] track
  simp only [startsOf, List.length_nil] at hiff
  rw [← hiff]
  constructor
  · intro h
    exact ⟨[], h, fun p => rfl⟩
  · rintro ⟨rest, hrest, hcount⟩
    rw [hrest, eq_nil_of_startsOf hcount]

/-- **A track is closed when no pitch of it is left open**, whichever notes the ends take. -/
theorem closed_iff {track : Track} : Closed track ↔ ∀ p, countAfter? p 0 track = some 0 :=
  openAfter?_eq_nil_iff 0

theorem Closed.openAfter? {track : Track} (h : Closed track) (now : Nat) :
    openAfter? now [] track = some [] :=
  (openAfter?_eq_nil_iff now).2 (closed_iff.1 h)

/-! ## Tracks one after the other -/

theorem countAfter?_append (p : Pitch) (count : Nat) (track other : Track) :
    countAfter? p count (track ++ other) =
      (countAfter? p count track).bind fun count => countAfter? p count other := by
  induction track generalizing count with
  | nil => rfl
  | cons event track ih =>
    cases event with
    | off q =>
      by_cases hq : q = p
      · by_cases hzero : count = 0 <;> simp [countAfter?, hq, hzero, ih]
      · simp [countAfter?, hq, ih]
    | on q | delay t | silent => simp only [List.cons_append, countAfter?, ih]

/-- A track behind another is read with the notes that the other left open. -/
theorem readNotes_append {now : Nat} {opened rest : List (Pitch × Nat)} {track : Track}
    (h : openAfter? now opened track = some rest) (other : Track) :
    readNotes now opened (track ++ other) =
      readNotes now opened track ++ readNotes (now + ticks track) rest other := by
  induction track generalizing now opened with
  | nil =>
    cases h
    rfl
  | cons event track ih =>
    cases event with
    | off q =>
      obtain ⟨found, hclose, h⟩ := Option.bind_eq_some_iff.1 h
      simp [readNotes, hclose, ih h, Event.ticks]
    | on q | silent =>
      simp only [List.cons_append, readNotes, ih h, ticks_cons, Event.ticks, Nat.zero_add]
    | delay t =>
      simp only [List.cons_append, readNotes, ih h, ticks_cons, Event.ticks, Nat.add_assoc]

theorem closed_nil : Closed [] := rfl

theorem closed_delay (t : Nat) : Closed [.delay t] := rfl

theorem Closed.append {track other : Track} (h : Closed track) (hother : Closed other) :
    Closed (track ++ other) := by
  rw [closed_iff] at h hother ⊢
  intro p
  rw [countAfter?_append, h p]
  exact hother p

theorem closed_flatten {tracks : List Track} (h : ∀ track ∈ tracks, Closed track) :
    Closed tracks.flatten := by
  induction tracks with
  | nil => exact closed_nil
  | cons track tracks ih =>
    obtain ⟨htrack, htracks⟩ := List.forall_mem_cons.1 h
    rw [List.flatten_cons]
    exact htrack.append (ih htracks)

/-! ## Silencing -/

theorem countAfter?_silenced (p : Pitch) (count : Nat) (track : Track) :
    countAfter? p count (silenced track) = some count := by
  induction track with
  | nil => rfl
  | cons event track ih =>
    unfold silenced at ih ⊢
    cases event <;> exact ih

theorem closed_silenced (track : Track) : Closed (silenced track) :=
  closed_iff.2 fun p => countAfter?_silenced p 0 track

/-- A silenced end is one note of its pitch less. -/
theorem countAfter?_silenceEnd {pitch : Pitch} {track rest : Track}
    (h : silenceEnd pitch track = some rest) (p : Pitch) (count : Nat) :
    countAfter? p (if pitch = p then count + 1 else count) track = countAfter? p count rest := by
  fun_induction silenceEnd pitch track generalizing rest count with
  | case1 => cases h
  | case2 track =>
    cases h
    by_cases hp : pitch = p <;> simp [countAfter?, hp]
  | case3 q track hq ih =>
    obtain ⟨r, hr, rfl⟩ := Option.map_eq_some_iff.1 h
    by_cases hqp : q = p
    · -- an end of another pitch
      have hp : ¬pitch = p := fun e => hq (hqp.trans e.symm)
      have hone := ih hr (count - 1)
      simp only [hp, if_false] at hone
      simp only [countAfter?, hqp, hp, if_true, if_false, hone]
    · simp only [countAfter?, hqp, if_false]
      exact ih hr count
  | case4 track ih =>
    obtain ⟨r, hr, rfl⟩ := Option.map_eq_some_iff.1 h
    exact ih hr count
  | case5 => cases h
  | case6 event track hoff hdelay ih =>
    obtain ⟨r, hr, rfl⟩ := Option.map_eq_some_iff.1 h
    cases event with
    | off q => exact absurd rfl (hoff q)
    | delay t => exact absurd rfl (hdelay t)
    | silent => exact ih hr count
    | on q =>
      simp only [countAfter?]
      rw [← ih hr]
      by_cases hp : pitch = p <;> by_cases hq : q = p <;> simp [hp, hq]

theorem countAfter?_silenceEmpty (p : Pitch) (count : Nat) (track : Track) :
    countAfter? p count (silenceEmpty track) = countAfter? p count track := by
  fun_induction silenceEmpty track generalizing count with
  | case1 => rfl
  | case2 q track rest h ih =>
    simp only [countAfter?, ih, countAfter?_silenceEnd h]
  | case3 q track h ih => simp only [countAfter?, ih]
  | case4 event track hon ih =>
    cases event with
    | on q => exact absurd rfl (hon q)
    | off q | delay t | silent => simp only [countAfter?, ih]

/-- **Silencing a start with the first end of its pitch leaves no note open**, even where that is not
the end that a reading takes. -/
theorem Closed.silenceEmpty {track : Track} (h : Closed track) : Closed (silenceEmpty track) := by
  rw [closed_iff] at h ⊢
  intro p
  rw [countAfter?_silenceEmpty]
  exact h p

/-! ## Trimming -/

theorem countAfter?_takeBack (p : Pitch) (count amount : Nat) (track : Track) :
    countAfter? p count (takeBack amount track).1 = countAfter? p count track := by
  induction track generalizing count with
  | nil => rfl
  | cons event track ih => cases event <;> simp only [takeBack, countAfter?, ih]

/-- **Ticks are taken back from delays alone.** -/
theorem Closed.trim {track : Track} (h : Closed track) (amount : Nat) :
    Closed (track.trim amount).track := by
  have hback : Closed (takeBack amount track).1 := by
    rw [closed_iff] at h ⊢
    intro p
    rw [countAfter?_takeBack]
    exact h p
  unfold Track.trim
  simp only
  split
  · exact hback.silenceEmpty
  · exact hback

theorem Closed.fit {reference track fitted : Track} (h : Closed track)
    (hfit : fit reference track = .ok fitted) : Closed fitted := by
  unfold Track.fit at hfit
  simp only at hfit
  split at hfit
  · split at hfit
    · cases hfit
      exact h.trim _
    · cases hfit
  · split at hfit
    · cases hfit
      exact h.append (closed_delay _)
    · cases hfit
      exact h

end Track

end RhythmTiles
