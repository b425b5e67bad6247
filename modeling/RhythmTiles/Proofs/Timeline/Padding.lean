import RhythmTiles.Proofs.Part.Alignment
import RhythmTiles.Timeline.Basic

/-!
# Padding is inaudible

The tracks that fill a part up have no note in them and last as long as the part's last track
(`isPadded_pad`). So parts that are padded start where they started (`placeParts_pad`), each at its own
tempo (`temposOf_pad`), and their tracks have the notes that they had (`spansOf_pad`): the timeline of the
parts is the same. Main theorem: `Timeline.ofParts_padAll`.
-/

namespace RhythmTiles

/-- Neither a start nor an end is left. -/
theorem Track.not_mem_silenced (track : Track) (p : Pitch) :
    .on p ∉ track.silenced ∧ .off p ∉ track.silenced := by
  have hnone : ∀ event : Event, event.silenced ≠ .on p ∧ event.silenced ≠ .off p := by
    intro event
    cases event <;> simp [Event.silenced]
  constructor
  · intro hmem
    obtain ⟨event, -, hevent⟩ := List.mem_map.1 hmem
    exact (hnone event).1 hevent
  · intro hmem
    obtain ⟨event, -, hevent⟩ := List.mem_map.1 hmem
    exact (hnone event).2 hevent

namespace Part

variable {R : Type}

/-- `padded` has `width` tracks: those of `part`, and behind them tracks without starts and ends, as long
as the last track of `part`. -/
structure IsPadded (width : Nat) (part padded : Part R) : Prop where
  bpm : padded.bpm = part.bpm
  ticks : padded.ticks = part.ticks
  width : padded.tracks.length = width
  tracks : ∃ added, padded.tracks = part.tracks ++ added ∧
    ∀ track ∈ added, (∀ p, .on p ∉ track ∧ .off p ∉ track) ∧
      track.ticks = (part.tracks.getLast?.map Track.ticks).getD 0

theorem not_mem_filler (part : Part R) (p : Pitch) : .on p ∉ part.filler ∧ .off p ∉ part.filler := by
  unfold filler
  cases part.tracks.getLast? with
  | none => simp
  | some track => exact track.not_mem_silenced p

theorem ticks_filler (part : Part R) :
    part.filler.ticks = (part.tracks.getLast?.map Track.ticks).getD 0 := by
  unfold filler
  cases part.tracks.getLast? with
  | none => rfl
  | some track => exact track.ticks_silenced

theorem isPadded_pad {width : Nat} {part : Part R} (h : part.tracks.length ≤ width) :
    IsPadded width part (part.pad width) where
  bpm := rfl
  ticks := ticks_pad width part
  width := by rw [length_pad, Nat.max_eq_left h]
  tracks := by
    refine ⟨_, rfl, fun track htrack => ?_⟩
    rw [List.eq_of_mem_replicate htrack]
    exact ⟨part.not_mem_filler, part.ticks_filler⟩

end Part

namespace Timeline

variable {R : Type}

/-- Padding moves no part. -/
theorem placeParts_pad (width start : Nat) (parts : List (Part R)) :
    placeParts start (parts.map (Part.pad width)) =
      (placeParts start parts).map (Prod.map id (Part.pad width)) := by
  induction parts generalizing start with
  | nil => rfl
  | cons part parts ih =>
    rw [List.map_cons, placeParts, Part.ticks_pad, ih]
    rfl

theorem spansOf_pad (width index : Nat) (placed : List (Nat × Part R)) :
    spansOf index (placed.map (Prod.map id (Part.pad width))) = spansOf index placed := by
  have hnotes : ∀ part : Part R, ((part.pad width).tracks[index]?.map Track.notes).getD [] =
      (part.tracks[index]?.map Track.notes).getD [] :=
    fun part => Part.notesAt_pad width part index
  unfold spansOf
  simp only [List.flatMap_map, Prod.map, id_eq, hnotes]

variable [Quantity R]

theorem temposOf_pad (width : Nat) (placed : List (Nat × Part R)) :
    temposOf (placed.map (Prod.map id (Part.pad width))) = temposOf placed := by
  unfold temposOf
  simp only [List.map_map, Function.comp_def, Prod.map, id_eq, Part.pad]

/-- **Padding is inaudible.** All parts get as many tracks as the widest of them, and the timeline stays
the same. -/
theorem ofParts_padAll (parts : List (Part R)) :
    (∀ width, Part.widest parts ≤ width ↔ ∀ part ∈ parts, part.tracks.length ≤ width) ∧
    List.Forall₂ (Part.IsPadded (Part.widest parts)) parts (Part.padAll parts) ∧
    ofParts (Part.padAll parts) = ofParts parts := by
  have hwidest : ∀ part ∈ parts, part.tracks.length ≤ Part.widest parts :=
    Part.widest_le.1 (Nat.le_refl _)
  refine ⟨fun width => Part.widest_le, ?_, ?_⟩
  · unfold Part.padAll
    rw [List.forall₂_map_right_iff, List.forall₂_same]
    exact fun part hpart => Part.isPadded_pad (hwidest part hpart)
  · unfold ofParts
    rw [Part.widest_padAll]
    simp only [Part.padAll, placeParts_pad, temposOf_pad, spansOf_pad]

/-- The last track of a part is not its longest, and a part without tracks takes no time. -/
example :
    let parts : List (Part Unit) := [⟨(), [[.delay 9], [.on 60, .delay 4, .off 60]]⟩, ⟨(), []⟩,
      ⟨(), [[], [], []]⟩]
    (Part.padAll parts).map Part.tracks = [[[.delay 9], [.on 60, .delay 4, .off 60],
      [.silent, .delay 4, .silent]], [[], [], []], [[], [], []]] := rfl

end Timeline

end RhythmTiles
