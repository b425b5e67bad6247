import RhythmTiles.Proofs.Part.Alignment
import RhythmTiles.Timeline.Basic

/-!
# Sections on a timeline

Sections follow each other, each as long as its first track (`startOf`). What is heard of a track of
a section is cut at the section's end and moved to the section's start (`contribution`); a track of
the timeline is all of these in the order of their starts (`spansOf_padAll`), and the tempo changes
where sections start (`ticks_temposOf`).
-/

namespace RhythmTiles

def Span.shift (ticks : Nat) (span : Span) : Span :=
  { span with start := ticks + span.start, stop := ticks + span.stop }

theorem Span.shift_shift (s t : Nat) (span : Span) :
    Span.shift s (Span.shift t span) = Span.shift (s + t) span := by
  simp [Span.shift, Nat.add_assoc]

/-- A note of a timeline in ticks alone. -/
def Note.span {R : Type} (note : Note R) : Span :=
  ⟨note.pitch, note.startTicks, note.startTicks + note.durationTicks⟩

namespace Timeline

/-- The tick at which section `i` of some sections starts. -/
def startOf (streams : List (List Track)) (i : Nat) : Nat :=
  ((streams.take i).map Part.referenceTicks).sum

/-- What is heard of track `k` of a section: the notes that start while the section's first track
lasts, cut at its end. -/
def heardOf (tracks : List Track) (k : Nat) : List Span :=
  (tracks[k]?.map (Track.notesWithin (Part.referenceTicks tracks))).getD []

/-- What section `i` adds to track `k` of the timeline. -/
def contribution (streams : List (List Track)) (i k : Nat) : List Span :=
  (heardOf (streams[i]?.getD []) k).map (Span.shift (startOf streams i))

/-- What all sections add to track `k` of the timeline. -/
def heard (streams : List (List Track)) (k : Nat) : List Span :=
  (List.range streams.length).flatMap fun i => contribution streams i k

/-! ## Section by section -/

theorem startOf_cons (tracks : List Track) (streams : List (List Track)) (i : Nat) :
    startOf (tracks :: streams) (i + 1) = Part.referenceTicks tracks + startOf streams i := by
  simp [startOf]

theorem contribution_cons (tracks : List Track) (streams : List (List Track)) (i k : Nat) :
    contribution (tracks :: streams) (i + 1) k =
      (contribution streams i k).map (Span.shift (Part.referenceTicks tracks)) := by
  simp [contribution, startOf_cons, Span.shift_shift]

/-- The first section is heard from the start on, the others when it is over. -/
theorem heard_cons (tracks : List Track) (streams : List (List Track)) (k : Nat) :
    heard (tracks :: streams) k =
      (heardOf tracks k).map (Span.shift 0) ++
        (heard streams k).map (Span.shift (Part.referenceTicks tracks)) := by
  unfold heard
  rw [List.length_cons, List.range_succ_eq_map, List.flatMap_cons, List.flatMap_map,
    List.map_flatMap]
  simp only [contribution_cons]
  rfl

/-- What a section adds comes from the track that the section has there. -/
theorem exists_of_mem_contribution {streams : List (List Track)} {i k : Nat} {span : Span}
    (h : span ∈ contribution streams i k) :
    ∃ tracks track own, streams[i]? = some tracks ∧ tracks[k]? = some track ∧
      own ∈ track.notesWithin (Part.referenceTicks tracks) ∧
      Span.shift (startOf streams i) own = span := by
  obtain ⟨own, hown, hspan⟩ := List.mem_map.1 h
  unfold heardOf at hown
  cases htracks : streams[i]? with
  | none => simp [htracks] at hown
  | some tracks =>
    rw [htracks, Option.getD_some] at hown
    cases htrack : tracks[k]? with
    | none => simp [htrack] at hown
    | some track =>
      rw [htrack, Option.map_some, Option.getD_some] at hown
      exact ⟨tracks, track, own, rfl, htrack, hown, hspan⟩

/-- What a section adds stays within the section, and is not empty. -/
theorem contribution_bounds {streams : List (List Track)} {i k : Nat} {span : Span}
    (h : span ∈ contribution streams i k) :
    startOf streams i ≤ span.start ∧ span.start < span.stop ∧
      span.stop ≤ startOf streams i + Part.referenceTicks (streams[i]?.getD []) := by
  obtain ⟨tracks, track, own, htracks, -, hown, rfl⟩ := exists_of_mem_contribution h
  obtain ⟨hsounds, hstop, -⟩ := Track.exists_of_mem_notesWithin hown
  rw [htracks, Option.getD_some]
  refine ⟨?_, ?_, ?_⟩ <;> simp only [Span.shift] <;> omega

/-- What a section adds has the pitches of its track. -/
theorem contribution_pitch {P : Pitch → Prop} {streams : List (List Track)}
    (hon : ∀ tracks ∈ streams, ∀ track ∈ tracks, ∀ p, Event.on p ∈ track → P p) {i k : Nat}
    {span : Span} (h : span ∈ contribution streams i k) : P span.pitch := by
  obtain ⟨tracks, track, own, htracks, htrack, hown, rfl⟩ := exists_of_mem_contribution h
  obtain ⟨-, -, note, hnote, hpitch⟩ := Track.exists_of_mem_notesWithin hown
  have hput := hon tracks (List.mem_of_getElem? htracks) track (List.mem_of_getElem? htrack)
  have hread : P note.pitch := Track.readNotes_pitch P (by simp) hput hnote
  rw [hpitch] at hread
  exact hread

/-! ## Parts end to end -/

variable {R : Type}

/-- The part lasts as long as the section, and is heard as far. -/
structure Plays (tracks : List Track) (part : Part R) : Prop where
  ticks : part.ticks = Part.referenceTicks tracks
  notesAt : ∀ k, part.notesAt k = heardOf tracks k

/-- A part that is aligned and padded plays its section. -/
theorem plays_pad {part aligned : Part R} (h : part.IsAligned aligned) (width : Nat) :
    Plays part.tracks (aligned.pad width) := by
  constructor
  · rw [Part.ticks_pad, h.ticks]
  · intro k
    rw [Part.notesAt_pad]
    unfold Part.notesAt heardOf
    have hlength := h.tracks.length_eq
    by_cases hk : k < part.tracks.length
    · have hk' : k < aligned.tracks.length := hlength ▸ hk
      rw [List.getElem?_eq_getElem hk, List.getElem?_eq_getElem hk']
      exact (h.tracks.get hk hk').notes
    · have hk' : ¬k < aligned.tracks.length := hlength ▸ hk
      rw [List.getElem?_eq_none (Nat.le_of_not_lt hk), List.getElem?_eq_none (Nat.le_of_not_lt hk')]
      rfl

theorem flatMap_placeParts {streams : List (List Track)} {parts : List (Part R)}
    (h : List.Forall₂ Plays streams parts) (start k : Nat) :
    ((placeParts start parts).flatMap fun placed =>
        (placed.2.notesAt k).map (Span.shift placed.1)) =
      (heard streams k).map (Span.shift start) := by
  induction h generalizing start with
  | nil => rfl
  | @cons tracks part streams parts hplays hrest ih =>
    rw [placeParts, List.flatMap_cons, ih, hplays.ticks, hplays.notesAt, heard_cons,
      List.map_append, List.map_map, List.map_map]
    simp only [Function.comp_def, Span.shift_shift, Nat.add_zero]

theorem map_fst_placeParts {streams : List (List Track)} {parts : List (Part R)}
    (h : List.Forall₂ Plays streams parts) (start : Nat) :
    (placeParts start parts).map Prod.fst =
      (List.range streams.length).map fun i => start + startOf streams i := by
  induction h generalizing start with
  | nil => rfl
  | @cons tracks part streams parts hplays hrest ih =>
    rw [placeParts, List.map_cons, ih, hplays.ticks, List.length_cons, List.range_succ_eq_map,
      List.map_cons, List.map_map]
    simp [startOf, Nat.add_assoc]

theorem pairwise_placeParts (start : Nat) (parts : List (Part R)) :
    (placeParts start parts).Pairwise (fun a b => a.1 ≤ b.1) ∧
      ∀ placed ∈ placeParts start parts, start ≤ placed.1 := by
  induction parts generalizing start with
  | nil => simp [placeParts]
  | cons part parts ih =>
    obtain ⟨hpairwise, hle⟩ := ih (start + part.ticks)
    have hlater : ∀ placed ∈ placeParts (start + part.ticks) parts, start ≤ placed.1 :=
      fun placed hplaced => Nat.le_of_add_right_le (hle placed hplaced)
    exact ⟨List.pairwise_cons.2 ⟨hlater, hpairwise⟩,
      List.forall_mem_cons.2 ⟨Nat.le_refl start, hlater⟩⟩

/-- **A track of the timeline is what the sections add to it**, sorted by start. -/
theorem spansOf_placeParts {streams : List (List Track)} {parts : List (Part R)}
    (h : List.Forall₂ Plays streams parts) (k : Nat) :
    spansOf k (placeParts 0 parts) = (heard streams k).mergeSort fun a b => a.start ≤ b.start := by
  have hflat := flatMap_placeParts h 0 k
  have hshift : Span.shift 0 = id := by
    funext span
    simp [Span.shift]
  rw [hshift, List.map_id] at hflat
  rw [← hflat]
  rfl

variable [Quantity R]

theorem span_timeSpan (tempos : List (TempoChange R)) {span : Span} (h : span.start ≤ span.stop) :
    (timeSpan tempos span).span = span := by
  simp [Note.span, timeSpan, Nat.add_sub_cancel' h]

/-- Parts are placed in order, so sorting the tempo changes leaves them in place. -/
theorem map_temposOf (parts : List (Part R)) :
    (temposOf (placeParts 0 parts)).map (fun change => (change.ticks, change.bpm)) =
      (placeParts 0 parts).map fun placed => (placed.1, placed.2.bpm / Quantity.ofNat 30) := by
  have hsorted : ((placeParts 0 parts).map fun placed =>
      (⟨placed.1, placed.2.bpm / Quantity.ofNat 30, Quantity.ofNat 0⟩ : TempoChange R)).Pairwise
        fun a b => decide (a.ticks ≤ b.ticks) = true := by
    rw [List.pairwise_map]
    exact (pairwise_placeParts 0 parts).1.imp fun hle => by simpa using hle
  unfold temposOf
  simp only
  rw [List.mergeSort_of_pairwise hsorted, List.map_map, List.map_map]
  rfl

/-- **The tempo changes where sections start.** -/
theorem ticks_temposOf {streams : List (List Track)} {parts : List (Part R)}
    (h : List.Forall₂ Plays streams parts) :
    (temposOf (placeParts 0 parts)).map TempoChange.ticks =
      (List.range streams.length).map (startOf streams) := by
  have hstarts := map_fst_placeParts h 0
  have htempos := congrArg (List.map Prod.fst) (map_temposOf parts)
  simp only [List.map_map, Function.comp_def] at htempos
  simp only [Nat.zero_add] at hstarts
  rw [← hstarts]
  exact htempos

end Timeline

end RhythmTiles
