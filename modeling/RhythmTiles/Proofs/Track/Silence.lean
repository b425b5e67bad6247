import Mathlib
import RhythmTiles.Proofs.Track.Reading
import RhythmTiles.Track.Trim

/-!
# Silencing empty notes

`Track.silenceEmpty` pairs a start with the *first* end of its pitch, while a reading pairs an end
with the most recent start. Both agree on every note that lasts: starts between the two stand at the
same tick, and which of them an end takes cannot be heard (`sounding_silenceEnd`). So silencing
removes exactly the empty notes from what is read (`notes_silenceEmpty`), and moves nothing
(`fades_silenceEmpty`). Once it is done there is nothing left to silence (`silenceEmpty_idem`).
-/

namespace RhythmTiles

def Span.sounds (span : Span) : Bool := span.start < span.stop

namespace Event

/-- The event as it was, or without its sound. -/
def Fades (event faded : Event) : Prop := faded = event ∨ faded = event.silenced

theorem silenced_silenced (event : Event) : event.silenced.silenced = event.silenced := by
  cases event <;> rfl

theorem Fades.trans {a b c : Event} (hab : Fades a b) (hbc : Fades b c) : Fades a c := by
  rcases hab with rfl | rfl
  · exact hbc
  · rw [Fades, silenced_silenced, or_self] at hbc
    exact Or.inr hbc

theorem Fades.ticks {event faded : Event} (h : Fades event faded) : faded.ticks = event.ticks := by
  rcases h with rfl | rfl
  · rfl
  · exact ticks_silenced event

end Event

namespace Track

/-! ## Silencing moves nothing -/

theorem fades_refl (track : Track) : List.Forall₂ Event.Fades track track :=
  List.forall₂_same.2 fun _ _ => Or.inl rfl

theorem fades_trans {a b c : Track} (hab : List.Forall₂ Event.Fades a b)
    (hbc : List.Forall₂ Event.Fades b c) : List.Forall₂ Event.Fades a c := by
  induction hab generalizing c with
  | nil => exact hbc
  | cons hone _ ih =>
    obtain ⟨event, rest, hevent, hrest, rfl⟩ := List.forall₂_cons_left_iff.1 hbc
    exact .cons (hone.trans hevent) (ih hrest)

/-- Events that fade take the time that they took. -/
theorem ticks_of_fades {track faded : Track} (h : List.Forall₂ Event.Fades track faded) :
    ticks faded = ticks track := by
  induction h with
  | nil => rfl
  | cons hone _ ih => rw [ticks_cons, ticks_cons, hone.ticks, ih]

theorem fades_silenceEnd {pitch : Pitch} {track rest : Track}
    (h : silenceEnd pitch track = some rest) : List.Forall₂ Event.Fades track rest := by
  fun_induction silenceEnd pitch track generalizing rest with
  | case1 => cases h
  | case2 track =>
    cases h
    exact .cons (Or.inr rfl) (fades_refl track)
  | case5 => cases h
  | case3 _ _ _ ih | case4 _ ih | case6 _ _ _ _ ih =>
    obtain ⟨r, hr, rfl⟩ := Option.map_eq_some_iff.1 h
    exact .cons (Or.inl rfl) (ih hr)

/-- **Silencing keeps every event in its place**, and every delay. -/
theorem fades_silenceEmpty (track : Track) : List.Forall₂ Event.Fades track (silenceEmpty track) := by
  fun_induction silenceEmpty track with
  | case1 => exact .nil
  | case2 p track rest h ih => exact .cons (Or.inr rfl) (fades_trans (fades_silenceEnd h) ih)
  | case3 p track h ih => exact .cons (Or.inl rfl) ih
  | case4 event track _ ih => exact .cons (Or.inl rfl) ih

theorem ticks_silenceEmpty (track : Track) : ticks (silenceEmpty track) = ticks track :=
  ticks_of_fades (fades_silenceEmpty track)

/-! ## What a silenced end changes -/

/-- Silencing a start with the first end of its pitch, no time being between them, leaves what
sounds: the start itself is the open note `(pitch, now)`. -/
theorem sounding_silenceEnd {pitch : Pitch} {track rest : Track}
    (h : silenceEnd pitch track = some rest) (now : Nat) (opened : List (Pitch × Nat)) :
    (readNotes now ((pitch, now) :: opened) track).filter Span.sounds =
      (readNotes now opened rest).filter Span.sounds := by
  fun_induction silenceEnd pitch track generalizing rest opened with
  | case1 => cases h
  | case2 track =>
    -- the end closes the start and the note between them is empty
    cases h
    simp [readNotes, closeNote, Span.sounds]
  | case3 p track hp ih =>
    obtain ⟨r, hr, rfl⟩ := Option.map_eq_some_iff.1 h
    have hne : ¬pitch = p := fun e => hp e.symm
    simp only [readNotes, closeNote, hne, if_false]
    cases closeNote p opened with
    | none => exact ih hr opened
    | some found =>
      simp only [Option.map_some, List.filter_cons, ih hr found.2]
  | case4 track ih =>
    obtain ⟨r, hr, rfl⟩ := Option.map_eq_some_iff.1 h
    exact ih hr opened
  | case5 => cases h
  | case6 event track hoff hdelay ih =>
    obtain ⟨r, hr, rfl⟩ := Option.map_eq_some_iff.1 h
    cases event with
    | off p => exact absurd rfl (hoff p)
    | delay t => exact absurd rfl (hdelay t)
    | silent => exact ih hr opened
    | on p =>
      simp only [readNotes]
      rw [← ih hr ((p, now) :: opened)]
      by_cases hp : p = pitch
      · rw [hp]
      · rw [readNotes_congr (SameOpen.swap hp now now opened)]

/-- Silencing one end brings no other end nearer. -/
theorem silenceEnd_eq_none {pitch other : Pitch} {track rest : Track}
    (h : silenceEnd pitch track = some rest) (hother : silenceEnd other track = none) :
    silenceEnd other rest = none := by
  -- both searches stop at the first delay that lets time pass
  fun_induction silenceEnd pitch track generalizing rest with
  | case1 => cases h
  | case2 track =>
    cases h
    by_cases hp : pitch = other
    · simp [silenceEnd, hp] at hother
    · simpa [silenceEnd, hp] using hother
  | case3 p track hp ih =>
    obtain ⟨r, hr, rfl⟩ := Option.map_eq_some_iff.1 h
    by_cases hq : p = other
    · simp [silenceEnd, hq] at hother
    · simp only [silenceEnd, hq, if_false, Option.map_eq_none_iff] at hother ⊢
      exact ih hr hother
  | case4 track ih =>
    obtain ⟨r, hr, rfl⟩ := Option.map_eq_some_iff.1 h
    simp only [silenceEnd, if_true, Option.map_eq_none_iff] at hother ⊢
    exact ih hr hother
  | case5 => cases h
  | case6 event track hoff hdelay ih =>
    obtain ⟨r, hr, rfl⟩ := Option.map_eq_some_iff.1 h
    cases event with
    | off p => exact absurd rfl (hoff p)
    | delay t => exact absurd rfl (hdelay t)
    | silent | on p =>
      simp only [silenceEnd, Option.map_eq_none_iff] at hother ⊢
      exact ih hr hother

/-! ## What silencing leaves -/

/-- What sounds of a track sounds of it still, with any notes open before it. -/
theorem sounding_silenceEmpty (track : Track) (now : Nat) (opened : List (Pitch × Nat)) :
    (readNotes now opened (silenceEmpty track)).filter Span.sounds =
      (readNotes now opened track).filter Span.sounds := by
  fun_induction silenceEmpty track generalizing now opened with
  | case1 => rfl
  | case2 p track rest h ih =>
    simp only [readNotes]
    rw [ih now opened, sounding_silenceEnd h now opened]
  | case3 p track h ih => exact ih now ((p, now) :: opened)
  | case4 event track hon ih =>
    cases event with
    | on p => exact absurd rfl (hon p)
    | delay t => exact ih (now + t) opened
    | silent => exact ih now opened
    | off p =>
      simp only [readNotes]
      cases closeNote p opened with
      | none => exact ih now opened
      | some found => simp only [List.filter_cons, ih now found.2]

/-- A note that is not empty does not become empty. -/
theorem silenceEnd_silenceEmpty {pitch : Pitch} {track : Track} (h : silenceEnd pitch track = none) :
    silenceEnd pitch (silenceEmpty track) = none := by
  fun_induction silenceEmpty track with
  | case1 => rfl
  | case2 p track rest hend ih =>
    simp only [silenceEnd, Option.map_eq_none_iff] at h ⊢
    exact ih (silenceEnd_eq_none hend h)
  | case3 p track hend ih =>
    simp only [silenceEnd, Option.map_eq_none_iff] at h ⊢
    exact ih h
  | case4 event track hon ih =>
    cases event with
    | on p => exact absurd rfl (hon p)
    | silent =>
      simp only [silenceEnd, Option.map_eq_none_iff] at h ⊢
      exact ih h
    | off p =>
      by_cases hp : p = pitch
      · simp [silenceEnd, hp] at h
      · simp only [silenceEnd, hp, if_false, Option.map_eq_none_iff] at h ⊢
        exact ih h
    | delay t =>
      by_cases ht : t = 0
      · simp only [silenceEnd, ht, if_true, Option.map_eq_none_iff] at h ⊢
        exact ih h
      · simp only [silenceEnd, ht, if_false]

/-- **A silenced track has nothing left to silence.** -/
theorem silenceEmpty_idem (track : Track) : silenceEmpty (silenceEmpty track) = silenceEmpty track := by
  fun_induction silenceEmpty track with
  | case1 => simp [silenceEmpty]
  | case2 p track rest hend ih =>
    rw [silenceEmpty, ih]
    intro q hq
    cases hq
  | case3 p track hend ih =>
    have hnone := silenceEnd_silenceEmpty hend
    rw [silenceEmpty]
    split
    · rename_i rest hrest
      rw [hnone] at hrest
      cases hrest
    · rw [ih]
  | case4 event track hon ih =>
    rw [silenceEmpty, ih]
    exact hon

/-- The open notes have started, and none that starts now ends before time passes. -/
def Lasting (now : Nat) (opened : List (Pitch × Nat)) (track : Track) : Prop :=
  ∀ note ∈ opened, note.2 ≤ now ∧ (note.2 = now → silenceEnd note.1 track = none)

section

variable {now : Nat} {opened : List (Pitch × Nat)} {track : Track}

theorem Lasting.on {p : Pitch} (h : Lasting now opened (.on p :: track))
    (hend : silenceEnd p track = none) : Lasting now ((p, now) :: opened) track := by
  intro note hnote
  rcases List.mem_cons.1 hnote with rfl | hnote
  · exact ⟨Nat.le_refl now, fun _ => hend⟩
  · obtain ⟨hle, hnone⟩ := h note hnote
    exact ⟨hle, fun hnow => by simpa [silenceEnd] using hnone hnow⟩

theorem Lasting.silenceEnd {p : Pitch} {rest : Track} (h : Lasting now opened (.on p :: track))
    (hend : track.silenceEnd p = some rest) : Lasting now opened rest := by
  intro note hnote
  obtain ⟨hle, hnone⟩ := h note hnote
  refine ⟨hle, fun hnow => silenceEnd_eq_none hend ?_⟩
  simpa [Track.silenceEnd] using hnone hnow

theorem Lasting.silent (h : Lasting now opened (.silent :: track)) : Lasting now opened track := by
  intro note hnote
  obtain ⟨hle, hnone⟩ := h note hnote
  exact ⟨hle, fun hnow => by simpa [Track.silenceEnd] using hnone hnow⟩

/-- An open note can only stand at the time after a delay if the delay is empty. -/
theorem Lasting.delay {t : Nat} (h : Lasting now opened (.delay t :: track)) :
    Lasting (now + t) opened track := by
  intro note hnote
  obtain ⟨hle, hnone⟩ := h note hnote
  refine ⟨by omega, fun hnow => ?_⟩
  have ht : t = 0 := by omega
  simpa [Track.silenceEnd, ht] using hnone (by omega)

/-- An open note of the pitch that ends does not start now, and one of another pitch does not end in
the rest either. -/
theorem Lasting.off {p : Pitch} (h : Lasting now opened (.off p :: track)) :
    Lasting now opened track := by
  intro note hnote
  obtain ⟨hle, hnone⟩ := h note hnote
  refine ⟨hle, fun hnow => ?_⟩
  by_cases hp : p = note.1
  · simpa [Track.silenceEnd, hp] using hnone hnow
  · simpa [Track.silenceEnd, hp] using hnone hnow

theorem Lasting.lt_of_mem {p : Pitch} {start : Nat} (h : Lasting now opened (.off p :: track))
    (hmem : (p, start) ∈ opened) : start < now := by
  obtain ⟨hle, hnone⟩ := h (p, start) hmem
  have hne : start ≠ now := fun e => by simpa [Track.silenceEnd] using hnone e
  simp only at hle
  omega

end

/-- No empty note is read from a silenced track, as long as no open note ends at once. -/
theorem sounds_of_silenceEmpty {track : Track} {now : Nat} {opened : List (Pitch × Nat)}
    (hopen : Lasting now opened track) {span : Span}
    (h : span ∈ readNotes now opened (silenceEmpty track)) : span.sounds := by
  fun_induction silenceEmpty track generalizing now opened with
  | case1 => simp [readNotes] at h
  | case2 p track rest hend ih => exact ih (hopen.silenceEnd hend) h
  | case3 p track hend ih => exact ih (hopen.on hend) h
  | case4 event track hon ih =>
    cases event with
    | on p => exact absurd rfl (hon p)
    | silent => exact ih hopen.silent h
    | delay t => exact ih hopen.delay h
    | off p =>
      simp only [readNotes] at h
      cases hclose : closeNote p opened with
      | none =>
        simp only [hclose] at h
        exact ih hopen.off h
      | some found =>
        obtain ⟨start, others⟩ := found
        have hperm := closeNote_perm hclose
        simp only [hclose, List.mem_cons] at h
        -- the note that ends has been open for some time
        rcases h with rfl | h
        · have hlt := hopen.lt_of_mem (hperm.mem_iff.2 List.mem_cons_self)
          simpa [Span.sounds] using hlt
        · refine ih (fun note hnote => ?_) h
          exact hopen.off note (hperm.mem_iff.2 (List.mem_cons_of_mem _ hnote))

/-- **Silencing removes exactly the empty notes.** -/
theorem notes_silenceEmpty (track : Track) :
    (silenceEmpty track).notes = track.notes.filter Span.sounds := by
  have hsame := sounding_silenceEmpty track 0 []
  have hall : (silenceEmpty track).notes.filter Span.sounds = (silenceEmpty track).notes :=
    List.filter_eq_self.2 fun span h => sounds_of_silenceEmpty (by simp [Lasting]) h
  rw [← hall]
  exact hsame

end Track

end RhythmTiles
