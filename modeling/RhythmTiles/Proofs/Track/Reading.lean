import RhythmTiles.Track.Basic

/-!
# Reading notes back from a track

What `Track.readNotes` does with the notes that are open. An end takes the most recent open note of
its own pitch, so a reading depends on nothing but the starts that are open for each pitch
(`readNotes_congr`). Every note that is read starts before it stops and stops within the track
(`readNotes_bounds`), and its pitch was put on somewhere (`readNotes_pitch`).
-/

namespace RhythmTiles

theorem Event.ticks_silenced (event : Event) : event.silenced.ticks = event.ticks := by
  cases event <;> rfl

namespace Track

/-! ## Lengths -/

@[simp] theorem ticks_nil : ticks [] = 0 := rfl

@[simp] theorem ticks_cons (event : Event) (track : Track) :
    ticks (event :: track) = event.ticks + ticks track :=
  rfl

@[simp] theorem ticks_append (track other : Track) :
    ticks (track ++ other) = ticks track + ticks other := by
  induction track with
  | nil => simp
  | cons event track ih => rw [List.cons_append, ticks_cons, ticks_cons, ih, Nat.add_assoc]

@[simp] theorem ticks_silenced (track : Track) : ticks (silenced track) = ticks track := by
  induction track with
  | nil => rfl
  | cons event track ih =>
    change event.silenced.ticks + ticks (silenced track) = event.ticks + ticks track
    rw [Event.ticks_silenced, ih]

/-! ## Open notes -/

/-- The starts of the open notes of a pitch, from the most recent on. -/
def startsOf (pitch : Pitch) : List (Pitch × Nat) → List Nat
  | [] => []
  | (p, start) :: opened => if p = pitch then start :: startsOf pitch opened else startsOf pitch opened

/-- Two lists of open notes that agree on every pitch. -/
def SameOpen (opened opened' : List (Pitch × Nat)) : Prop :=
  ∀ pitch, startsOf pitch opened = startsOf pitch opened'

theorem SameOpen.cons {opened opened' : List (Pitch × Nat)} (h : SameOpen opened opened')
    (note : Pitch × Nat) : SameOpen (note :: opened) (note :: opened') := by
  intro pitch
  simp only [startsOf, h pitch]

/-- Open notes of two pitches may change places. -/
theorem SameOpen.swap {p q : Pitch} (h : p ≠ q) (x y : Nat) (opened : List (Pitch × Nat)) :
    SameOpen ((p, x) :: (q, y) :: opened) ((q, y) :: (p, x) :: opened) := by
  intro pitch
  by_cases hp : p = pitch
  · have hq : q ≠ pitch := fun e => h (hp.trans e.symm)
    simp [startsOf, hp, hq]
  · simp [startsOf, hp]

theorem closeNote_eq_none {pitch : Pitch} {opened : List (Pitch × Nat)} :
    closeNote pitch opened = none ↔ startsOf pitch opened = [] := by
  induction opened with
  | nil => simp [closeNote, startsOf]
  | cons note opened ih =>
    obtain ⟨p, start⟩ := note
    by_cases hp : p = pitch
    · simp [closeNote, startsOf, hp]
    · simp [closeNote, startsOf, hp, ih]

theorem startsOf_of_closeNote {pitch : Pitch} {opened rest : List (Pitch × Nat)} {start : Nat}
    (h : closeNote pitch opened = some (start, rest)) :
    startsOf pitch opened = start :: startsOf pitch rest ∧
      ∀ q, q ≠ pitch → startsOf q opened = startsOf q rest := by
  induction opened generalizing rest with
  | nil => simp [closeNote] at h
  | cons note opened ih =>
    obtain ⟨p, x⟩ := note
    by_cases hp : p = pitch
    · simp only [closeNote, hp, if_true, Option.some.injEq, Prod.mk.injEq] at h
      obtain ⟨rfl, rfl⟩ := h
      refine ⟨by simp [startsOf, hp], fun q hq => ?_⟩
      have hpq : p ≠ q := fun e => hq (e.symm.trans hp)
      simp [startsOf, hpq]
    · simp only [closeNote, hp, if_false, Option.map_eq_some_iff, Prod.mk.injEq] at h
      obtain ⟨⟨found, others⟩, hclose, rfl, rfl⟩ := h
      obtain ⟨hsame, hother⟩ := ih hclose
      refine ⟨by simp [startsOf, hp, hsame], fun q hq => ?_⟩
      simp only [startsOf, hother q hq]

/-- Lists that agree on every pitch close the same note, and agree then. -/
theorem closeNote_congr {opened opened' : List (Pitch × Nat)} (h : SameOpen opened opened')
    (pitch : Pitch) :
    (closeNote pitch opened = none ∧ closeNote pitch opened' = none) ∨
      ∃ start rest rest', closeNote pitch opened = some (start, rest) ∧
        closeNote pitch opened' = some (start, rest') ∧ SameOpen rest rest' := by
  cases hclose : closeNote pitch opened with
  | none =>
    refine Or.inl ⟨rfl, ?_⟩
    rw [closeNote_eq_none, ← h pitch, ← closeNote_eq_none]
    exact hclose
  | some found =>
    obtain ⟨start, rest⟩ := found
    obtain ⟨hstart, hother⟩ := startsOf_of_closeNote hclose
    cases hclose' : closeNote pitch opened' with
    | none =>
      rw [closeNote_eq_none, ← h pitch, hstart] at hclose'
      cases hclose'
    | some found' =>
      obtain ⟨start', rest'⟩ := found'
      obtain ⟨hstart', hother'⟩ := startsOf_of_closeNote hclose'
      -- both lists have the same starts of the pitch, so the first of them, too
      have hsame := (hstart.symm.trans (h pitch)).trans hstart'
      obtain ⟨rfl, hrest⟩ := List.cons.inj hsame
      refine Or.inr ⟨start, rest, rest', rfl, rfl, fun q => ?_⟩
      by_cases hq : q = pitch
      · rw [hq]
        exact hrest
      · rw [← hother q hq, ← hother' q hq]
        exact h q

/-- A reading depends on the open starts of each pitch alone. -/
theorem readNotes_congr {opened opened' : List (Pitch × Nat)} (h : SameOpen opened opened')
    (now : Nat) (track : Track) : readNotes now opened track = readNotes now opened' track := by
  induction track generalizing now opened opened' with
  | nil => rfl
  | cons event track ih =>
    cases event with
    | on p => exact ih (h.cons (p, now)) now
    | off p =>
      rcases closeNote_congr h p with ⟨h1, h2⟩ | ⟨start, rest, rest', h1, h2, hrest⟩
      · simp only [readNotes, h1, h2]
        exact ih h now
      · simp only [readNotes, h1, h2, ih hrest now]
    | delay t => exact ih h (now + t)
    | silent => exact ih h now

theorem closeNote_perm {pitch : Pitch} {opened rest : List (Pitch × Nat)} {start : Nat}
    (h : closeNote pitch opened = some (start, rest)) : opened.Perm ((pitch, start) :: rest) := by
  induction opened generalizing rest with
  | nil => simp [closeNote] at h
  | cons note opened ih =>
    obtain ⟨p, x⟩ := note
    by_cases hp : p = pitch
    · simp only [closeNote, hp, if_true, Option.some.injEq, Prod.mk.injEq] at h
      obtain ⟨rfl, rfl⟩ := h
      rw [hp]
    · simp only [closeNote, hp, if_false, Option.map_eq_some_iff, Prod.mk.injEq] at h
      obtain ⟨⟨found, others⟩, hclose, rfl, rfl⟩ := h
      exact ((ih hclose).cons (p, x)).trans (.swap _ _ _)

/-! ## What is read -/

/-- Notes do not run backwards, and none outlasts the track. -/
theorem readNotes_bounds {now : Nat} {opened : List (Pitch × Nat)} {track : Track}
    (hopen : ∀ note ∈ opened, note.2 ≤ now) {span : Span} (h : span ∈ readNotes now opened track) :
    span.start ≤ span.stop ∧ span.stop ≤ now + ticks track := by
  induction track generalizing now opened with
  | nil => simp [readNotes] at h
  | cons event track ih =>
    cases event with
    | on p =>
      have hcons : ∀ note ∈ (p, now) :: opened, note.2 ≤ now :=
        List.forall_mem_cons.2 ⟨Nat.le_refl now, hopen⟩
      simpa [Event.ticks] using ih hcons h
    | off p =>
      simp only [readNotes] at h
      cases hclose : closeNote p opened with
      | none =>
        simp only [hclose] at h
        simpa [Event.ticks] using ih hopen h
      | some found =>
        obtain ⟨start, rest⟩ := found
        have hperm := closeNote_perm hclose
        simp only [hclose, List.mem_cons] at h
        -- the note that ends here was open, and the others still are
        rcases h with rfl | h
        · have hstart : start ≤ now := hopen (p, start) (hperm.mem_iff.2 (by simp))
          simp only [ticks_cons]
          omega
        · have hrest : ∀ note ∈ rest, note.2 ≤ now := fun note hnote =>
            hopen note (hperm.mem_iff.2 (List.mem_cons_of_mem _ hnote))
          simpa [Event.ticks] using ih hrest h
    | delay t =>
      have hlater : ∀ note ∈ opened, note.2 ≤ now + t := fun note hnote =>
        Nat.le_add_right_of_le (hopen note hnote)
      obtain ⟨hle, hstop⟩ := ih hlater h
      simp only [ticks_cons, Event.ticks]
      omega
    | silent => simpa [Event.ticks] using ih hopen h

/-- The pitches that are read are pitches that are open or are put on. -/
theorem readNotes_pitch (P : Pitch → Prop) {now : Nat} {opened : List (Pitch × Nat)} {track : Track}
    (hopen : ∀ note ∈ opened, P note.1) (hon : ∀ pitch, Event.on pitch ∈ track → P pitch)
    {span : Span} (h : span ∈ readNotes now opened track) : P span.pitch := by
  induction track generalizing now opened with
  | nil => simp [readNotes] at h
  | cons event track ih =>
    have hon' : ∀ pitch, Event.on pitch ∈ track → P pitch := fun pitch hp =>
      hon pitch (List.mem_cons_of_mem _ hp)
    cases event with
    | on p =>
      have hcons : ∀ note ∈ (p, now) :: opened, P note.1 :=
        List.forall_mem_cons.2 ⟨hon p (by simp), hopen⟩
      exact ih hcons hon' h
    | off p =>
      simp only [readNotes] at h
      cases hclose : closeNote p opened with
      | none =>
        simp only [hclose] at h
        exact ih hopen hon' h
      | some found =>
        obtain ⟨start, rest⟩ := found
        have hperm := closeNote_perm hclose
        simp only [hclose, List.mem_cons] at h
        rcases h with rfl | h
        · exact hopen (p, start) (hperm.mem_iff.2 (by simp))
        · have hrest : ∀ note ∈ rest, P note.1 := fun note hnote =>
            hopen note (hperm.mem_iff.2 (List.mem_cons_of_mem _ hnote))
          exact ih hrest hon' h
    | delay t => exact ih hopen hon' h
    | silent => exact ih hopen hon' h

/-- A delay at the end is not heard. -/
theorem readNotes_append_delay (now : Nat) (opened : List (Pitch × Nat)) (track : Track) (t : Nat) :
    readNotes now opened (track ++ [.delay t]) = readNotes now opened track := by
  induction track generalizing now opened with
  | nil => rfl
  | cons event track ih =>
    cases event with
    | off p =>
      simp only [List.cons_append, readNotes]
      cases closeNote p opened with
      | none => exact ih now opened
      | some found => simp only [ih]
    | on p => exact ih now ((p, now) :: opened)
    | delay s => exact ih (now + s) opened
    | silent => exact ih now opened

/-- Nothing is heard of a track without its sound. -/
theorem readNotes_silenced (now : Nat) (opened : List (Pitch × Nat)) (track : Track) :
    readNotes now opened (silenced track) = [] := by
  induction track generalizing now with
  | nil => rfl
  | cons event track ih => cases event <;> exact ih _

end Track

end RhythmTiles
