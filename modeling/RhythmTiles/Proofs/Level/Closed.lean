import RhythmTiles.Proofs.Chord.Closed
import RhythmTiles.Proofs.Level.Reading
import RhythmTiles.Proofs.Score.Length

/-!
# Levels leave no note open

The tracks that are read of a level are closed, since chords are and rests are
(`Score.closed_read`). Aligning trims, lengthens and silences tracks, and padding adds tracks without
sound; all of these keep tracks closed. Main theorem: `Level.closed_parts`.
-/

namespace RhythmTiles

open Track

/-! ## Scores -/

namespace Score

theorem Phrase.Plays.closed {meter : Meter} {phrase : Phrase} {track : Track}
    (h : phrase.Plays meter track) : Closed track := by
  cases phrase with
  | unit body code =>
    obtain ⟨entries, -, hexpand⟩ := h
    exact Chord.closed_expand (hexpand 0)
  | rest letters =>
    cases h
    exact closed_delay _

/-- **A track that is read leaves no note open.** -/
theorem closed_read {meter : Meter} {text : List Char} {track : Track}
    (h : read meter text = .ok track) : Closed track := by
  obtain ⟨phrases, tracks, -, hplays, -, rfl⟩ := remaining_of_read h
  refine closed_flatten fun track htrack => ?_
  obtain ⟨phrase, -, hphrase⟩ := exists_of_mem_right hplays htrack
  exact hphrase.closed

theorem closed_compile {score : String} {baseBeats bpm : Float} {track : Track}
    (h : Score.compile score baseBeats bpm = .ok track) : Closed track := by
  unfold Score.compile at h
  split at h
  · cases h
  · exact closed_read h

end Score

/-! ## Parts -/

namespace Part

variable {R : Type}

/-- No track of the part leaves a note open. -/
def Closed (part : Part R) : Prop := ∀ track ∈ part.tracks, track.Closed

theorem closed_fitTracks {music index : Nat} {reference : Track} {tracks fitted : List Track}
    (h : ∀ track ∈ tracks, track.Closed)
    (hfit : fitTracks music index reference tracks = .ok fitted) :
    ∀ track ∈ fitted, track.Closed := by
  induction tracks generalizing index fitted with
  | nil =>
    cases hfit
    simp
  | cons track tracks ih =>
    obtain ⟨htrack, htracks⟩ := List.forall_mem_cons.1 h
    obtain ⟨head, hhead, hfit⟩ := Outcome.bind_eq_ok.1 hfit
    obtain ⟨rest, hrest, hfit⟩ := Outcome.bind_eq_ok.1 hfit
    cases hfit
    exact List.forall_mem_cons.2 ⟨htrack.fit (Outcome.mapError_eq_ok.1 hhead), ih htracks hrest⟩

/-- Aligning leaves no note open. -/
theorem Closed.align {music : Nat} {part aligned : Part R} (h : part.Closed)
    (halign : part.align music = .ok aligned) : aligned.Closed := by
  obtain ⟨bpm, tracks⟩ := part
  cases tracks with
  | nil =>
    cases halign
    exact h
  | cons reference others =>
    obtain ⟨hreference, hothers⟩ := List.forall_mem_cons.1 h
    obtain ⟨fitted, hfit, halign⟩ := Outcome.bind_eq_ok.1 halign
    cases halign
    intro track htrack
    obtain ⟨track, hmem, rfl⟩ := List.mem_map.1 htrack
    rcases List.mem_cons.1 hmem with rfl | hmem
    · exact hreference.silenceEmpty
    · exact (closed_fitTracks hothers hfit track hmem).silenceEmpty

theorem closed_alignAll {index : Nat} {parts aligned : List (Part R)}
    (h : ∀ part ∈ parts, part.Closed) (halign : alignAll index parts = .ok aligned) :
    ∀ part ∈ aligned, part.Closed := by
  induction parts generalizing index aligned with
  | nil =>
    cases halign
    simp
  | cons part parts ih =>
    obtain ⟨hpart, hparts⟩ := List.forall_mem_cons.1 h
    obtain ⟨head, hhead, halign⟩ := Outcome.bind_eq_ok.1 halign
    obtain ⟨rest, hrest, halign⟩ := Outcome.bind_eq_ok.1 halign
    cases halign
    exact List.forall_mem_cons.2 ⟨hpart.align hhead, ih hparts hrest⟩

theorem closed_filler (part : Part R) : part.filler.Closed := by
  unfold filler
  cases part.tracks.getLast? with
  | none => exact closed_nil
  | some track => exact closed_silenced track

/-- What fills a part up has no notes to leave open. -/
theorem Closed.pad {part : Part R} (h : part.Closed) (width : Nat) : (part.pad width).Closed := by
  intro track htrack
  rcases List.mem_append.1 htrack with htrack | htrack
  · exact h track htrack
  · rw [List.eq_of_mem_replicate htrack]
    exact part.closed_filler

end Part

/-! ## Levels -/

theorem Music.IsPart.closed {baseBpm : Float} {m : Music} {part : Part Float}
    (h : IsPart baseBpm m part) : part.Closed := by
  intro track htrack
  obtain ⟨score, -, hscore⟩ := exists_of_mem_right h.tracks htrack
  exact Score.closed_compile hscore

namespace Level

/-- **Every end in a level ends a note, and no note of it stays open**: not as it is read, not when it
is aligned, and not when it is padded. -/
theorem closed_parts {level : Level} {parts : List (Part Float)} (h : level.parts = .ok parts) :
    ∃ aligned, Part.alignAll 0 parts = .ok aligned ∧
      ∀ part ∈ parts ++ aligned ++ Part.padAll aligned, ∀ track ∈ part.tracks,
        track.Closed ∧ track.notes.map Span.pitch = track.filterMap Event.ended? := by
  have hread : ∀ part ∈ parts, part.Closed := by
    intro part hpart
    obtain ⟨m, -, hm⟩ := exists_of_mem_right (Music.parts_eq_ok.1 h) hpart
    exact hm.closed
  -- a level that is read is aligned, or it would have no timeline
  obtain ⟨_, htimeline, -⟩ := timeline_of_parts h
  obtain ⟨parts', hparts', halign⟩ := Outcome.bind_eq_ok.1 htimeline
  obtain rfl : parts = parts' := Except.ok.inj (h.symm.trans hparts')
  obtain ⟨aligned, halign, -⟩ := Outcome.bind_eq_ok.1 halign
  have haligned := Part.closed_alignAll hread halign
  have hpadded : ∀ part ∈ Part.padAll aligned, part.Closed := by
    intro part hpart
    obtain ⟨part, hmem, rfl⟩ := List.mem_map.1 hpart
    exact (haligned part hmem).pad _
  have hall : ∀ part ∈ parts ++ aligned ++ Part.padAll aligned, part.Closed := by
    intro part hpart
    simp only [List.mem_append] at hpart
    rcases hpart with (hpart | hpart) | hpart
    · exact hread part hpart
    · exact haligned part hpart
    · exact hpadded part hpart
  refine ⟨aligned, halign, fun part hpart track htrack => ?_⟩
  have hclosed := hall part hpart track htrack
  exact ⟨hclosed, hclosed.map_pitch_notes⟩

/-- The second track is cut behind its second chord, with two starts of one pitch at the cut; the
second section is padded. -/
theorem closed_parts_cut_repeated_pitch :
    let level : Level :=
      ⟨60.0, [⟨1, none, 0.5, ["(c)[K],(d)[J]", "(c@c)[J],(e)[K],(c.c)[J]"]⟩,
        ⟨2, some 90.0, 1.0, ["(c.e)[K]"]⟩], none⟩
    let streams : List (List Track) :=
      [[[.on 60, .delay 1920, .off 60, .on 62, .delay 3840, .off 62],
          [.on 60, .delay 384, .on 60, .delay 3456, .off 60, .off 60, .on 64, .delay 1920, .off 64,
            .on 60, .on 60, .delay 3840, .off 60, .off 60]],
        [[.on 60, .on 64, .delay 960, .off 60, .off 64]]]
    ∃ parts aligned, level.parts = .ok parts ∧ parts.map Part.tracks = streams ∧
      Part.alignAll 0 parts = .ok aligned ∧
      ∀ part ∈ parts ++ aligned ++ Part.padAll aligned, ∀ track ∈ part.tracks, track.Closed := by
  intro level streams
  have hreads : level.Reads streams := by
    refine .cons (.cons ?_ (.cons ?_ .nil)) (.cons (.cons ?_ .nil) .nil)
    · decide +kernel
    · decide +kernel
    · decide +kernel
  obtain ⟨parts, hparts, hstreams⟩ := hreads.parts
  obtain ⟨aligned, halign, hclosed⟩ := closed_parts hparts
  exact ⟨parts, aligned, hparts, hstreams, halign, fun part hpart track htrack =>
    (hclosed part hpart track htrack).1⟩

end Level

end RhythmTiles
