import RhythmTiles.Proofs.Level.Reading
import RhythmTiles.Proofs.Timeline.Sections

/-!
# What a level plays

The timeline of a level, told from its scores alone: every note that a score plays before its section
is over is on the timeline, at the place of its section, and nothing else is.
-/

namespace RhythmTiles

namespace Level

variable {level : Level} {streams : List (List Track)}

/-- A level that is read has aligned parts that play its sections, with as many tracks as there are
scores. -/
theorem Reads.aligned (h : level.Reads streams) :
    ∃ aligned, level.timeline = .ok (Timeline.ofParts (Part.padAll aligned)) ∧
      List.Forall₂ Timeline.Plays streams (Part.padAll aligned) ∧
      level.musics.map (fun m => m.scores.length) =
        aligned.map (fun part => part.tracks.length) := by
  obtain ⟨parts, hparts, rfl⟩ := h.parts
  obtain ⟨aligned, htimeline, haligned⟩ := timeline_of_parts hparts
  refine ⟨aligned, htimeline, ?_, ?_⟩
  · rw [Part.padAll, List.forall₂_map_left_iff, List.forall₂_map_right_iff]
    exact haligned.imp fun part other hone => Timeline.plays_pad hone _
  · have hscores : level.musics.map (fun m => m.scores.length) =
        parts.map (fun part => part.tracks.length) :=
      map_eq_map_of_forall₂ ((Music.parts_eq_ok.1 hparts).imp fun m part hpart =>
        hpart.tracks.length_eq)
    have htracks : parts.map (fun part => part.tracks.length) =
        aligned.map (fun part => part.tracks.length) :=
      map_eq_map_of_forall₂ (haligned.imp fun part other hone => hone.tracks.length_eq)
    exact hscores.trans htracks

theorem map_span_notes {parts : List (Part Float)} (h : List.Forall₂ Timeline.Plays streams parts)
    {k : Nat} {track : TimelineTrack Float} (hk : (Timeline.ofParts parts).tracks[k]? = some track) :
    track.notes.map Note.span =
      (Timeline.heard streams k).mergeSort fun a b => a.start ≤ b.start := by
  rw [← Timeline.spansOf_placeParts h]
  simp only [Timeline.ofParts, List.getElem?_map, Option.map_eq_some_iff] at hk
  obtain ⟨index, hindex, rfl⟩ := hk
  obtain ⟨hlt, rfl⟩ := List.getElem?_eq_some_iff.1 hindex
  rw [List.getElem_range, List.map_map]
  have hspan : ∀ span ∈ Timeline.spansOf k (Timeline.placeParts 0 parts),
      (Note.span ∘ Timeline.timeSpan (Timeline.temposOf (Timeline.placeParts 0 parts))) span =
        span := by
    intro span hspan
    rw [Timeline.spansOf_placeParts h, List.mem_mergeSort] at hspan
    obtain ⟨i, -, hmem⟩ := List.mem_flatMap.1 hspan
    exact Timeline.span_timeSpan _ (Nat.le_of_lt (Timeline.contribution_bounds hmem).2.1)
  rw [List.map_congr_left hspan, List.map_id']

/-- The notes of a track are what is heard of it. -/
theorem perm_heard {parts : List (Part Float)} (h : List.Forall₂ Timeline.Plays streams parts)
    {k : Nat} {track : TimelineTrack Float} (hk : (Timeline.ofParts parts).tracks[k]? = some track) :
    (track.notes.map Note.span).Perm (Timeline.heard streams k) := by
  rw [map_span_notes h hk]
  exact List.mergeSort_perm _ _

theorem pairwise_notes {parts : List (Part Float)} (h : List.Forall₂ Timeline.Plays streams parts)
    {k : Nat} {track : TimelineTrack Float} (hk : (Timeline.ofParts parts).tracks[k]? = some track) :
    track.notes.Pairwise fun a b => a.startTicks ≤ b.startTicks := by
  have hsorted : (track.notes.map Note.span).Pairwise fun a b => decide (a.start ≤ b.start) := by
    rw [map_span_notes h hk]
    refine List.pairwise_mergeSort (fun a b c hab hbc => ?_) (fun a b => ?_) _
    · simp only [decide_eq_true_eq] at hab hbc ⊢
      omega
    · simp only [Bool.or_eq_true, decide_eq_true_eq]
      omega
  rw [List.pairwise_map] at hsorted
  exact hsorted.imp fun hle => of_decide_eq_true hle

/-- The tracks of a level put on keys only. -/
theorem Reads.isKey (h : level.Reads streams) {tracks : List Track} (htracks : tracks ∈ streams)
    {track : Track} (htrack : track ∈ tracks) {p : Pitch} (hp : Event.on p ∈ track) :
    Pitch.isKey p = true := by
  obtain ⟨m, -, hm⟩ := exists_of_mem_right h htracks
  exact (hm.spec track htrack).2 p hp

/-- A note that is heard lasts, is a key, and lies within its section. -/
theorem Reads.note_bounds (h : level.Reads streams) {k : Nat} {note : Note Float}
    (hnote : note.span ∈ Timeline.heard streams k) :
    0 < note.durationTicks ∧ 21 ≤ note.pitch ∧ note.pitch ≤ 108 ∧
      ∃ i, note.span ∈ Timeline.contribution streams i k ∧
        Timeline.startOf streams i ≤ note.startTicks ∧
        note.startTicks + note.durationTicks ≤
          Timeline.startOf streams i + Part.referenceTicks (streams[i]?.getD []) := by
  obtain ⟨i, -, hi⟩ := List.mem_flatMap.1 hnote
  obtain ⟨hstart, hsounds, hstop⟩ := Timeline.contribution_bounds hi
  have hkey : Pitch.isKey note.pitch = true :=
    Timeline.contribution_pitch (fun _ htracks _ htrack _ hp => h.isKey htracks htrack hp) hi
  simp only [Pitch.isKey, Bool.and_eq_true, decide_eq_true_eq] at hkey
  simp only [Note.span] at hsounds
  exact ⟨by omega, hkey.1, hkey.2, i, hi, hstart, hstop⟩

/-- **The timeline of a level is what its scores play**, section after section. -/
theorem timeline_of_reads (level : Level) (streams : List (List Track))
    (h : level.Reads streams) :
    ∃ timeline, level.timeline = .ok timeline ∧
      timeline.tracks.length = (level.musics.map fun m => m.scores.length).foldl max 0 ∧
      (∀ k track, timeline.tracks[k]? = some track →
        (track.notes.map Note.span).Perm (Timeline.heard streams k) ∧
        track.notes.Pairwise (fun a b => a.startTicks ≤ b.startTicks) ∧
        ∀ note ∈ track.notes, 0 < note.durationTicks ∧ 21 ≤ note.pitch ∧ note.pitch ≤ 108 ∧
          ∃ i, note.span ∈ Timeline.contribution streams i k ∧
            Timeline.startOf streams i ≤ note.startTicks ∧
            note.startTicks + note.durationTicks ≤
              Timeline.startOf streams i + Part.referenceTicks (streams[i]?.getD [])) ∧
      timeline.tempos.map TempoChange.ticks =
        (List.range streams.length).map (Timeline.startOf streams) := by
  obtain ⟨aligned, htimeline, hplays, hwidths⟩ := h.aligned
  refine ⟨_, htimeline, ?_, ?_, Timeline.ticks_temposOf hplays⟩
  · have hwidest := Part.widest_padAll aligned
    simp only [Timeline.ofParts, List.length_map, List.length_range, hwidest, hwidths]
    rfl
  · intro k track hk
    have hperm := perm_heard hplays hk
    refine ⟨hperm, pairwise_notes hplays hk, fun note hnote => ?_⟩
    exact h.note_bounds (hperm.mem_iff.1 (List.mem_map_of_mem hnote))

/-- The long second track of the first section is cut where the second section starts. -/
theorem timeline_of_reads_two_sections :
    let level : Level :=
      ⟨60.0, [⟨1, none, 0.5, ["(c)[K],(d)[J]", "(e)[I]"]⟩, ⟨2, some 90.0, 1.0, ["(c.e)[K]"]⟩], none⟩
    let streams : List (List Track) :=
      [[[.on 60, .delay 1920, .off 60, .on 62, .delay 3840, .off 62],
          [.on 64, .delay 7680, .off 64]],
        [[.on 60, .on 64, .delay 960, .off 60, .off 64]]]
    level.Reads streams ∧
      ∃ timeline, level.timeline = .ok timeline ∧ timeline.tracks.length = 2 ∧
        (∀ track, timeline.tracks[1]? = some track →
          (track.notes.map Note.span).Perm [⟨64, 0, 5760⟩]) ∧
        timeline.tempos.map TempoChange.ticks = [0, 5760] := by
  intro level streams
  have hreads : level.Reads streams := by
    refine .cons (.cons ?_ (.cons ?_ .nil)) (.cons (.cons ?_ .nil) .nil)
    · decide +kernel
    · decide +kernel
    · decide +kernel
  obtain ⟨timeline, htimeline, hlength, htracks, htempos⟩ := timeline_of_reads level streams hreads
  have hheard : Timeline.heard streams 1 = [⟨64, 0, 5760⟩] := by decide
  exact ⟨hreads, timeline, htimeline, hlength, fun track hk => hheard ▸ (htracks 1 track hk).1,
    htempos⟩

end Level

end RhythmTiles
