import RhythmTiles.Proofs.Part.Alignment
import RhythmTiles.Proofs.Score.Invariant
import RhythmTiles.Timeline.Build

/-!
# Reading the scores of a level

A level has parts when every score of every section can be read (`parts_eq_ok`), and then it has a
timeline, for a track that was read is never too long to be aligned (`timeline_of_parts`). Otherwise
the first score that cannot be read, by section and then by track, is to blame (`timeline_eq_error`).
-/

namespace RhythmTiles

/-- What is read of a score compiles within the tick limit to events that put on keys only. -/
theorem Score.compile_spec {score : String} {baseBeats bpm : Float} {track : Track}
    (h : Score.compile score baseBeats bpm = .ok track) :
    track.ticks ≤ maxTicks ∧ ∀ p, Event.on p ∈ track → Pitch.isKey p = true := by
  unfold Score.compile at h
  split at h
  · cases h
  · exact Score.read_spec h

namespace Music

/-- A score of a section, read at the section's base beats and tempo. -/
def compile (m : Music) (baseBpm : Float) (score : String) : Except ScoreFault Track :=
  Score.compile score m.baseBeats (scoreTempo (m.tempo baseBpm) m.baseBeats)

/-- The tracks are what the scores of the section are read into. -/
def Reads (m : Music) (baseBpm : Float) (tracks : List Track) : Prop :=
  List.Forall₂ (fun score track => m.compile baseBpm score = .ok track) m.scores tracks

/-- Every score of the section can be read. -/
def Readable (m : Music) (baseBpm : Float) : Prop :=
  ∀ score ∈ m.scores, ∃ track, m.compile baseBpm score = .ok track

theorem Reads.readable {m : Music} {baseBpm : Float} {tracks : List Track}
    (h : m.Reads baseBpm tracks) : m.Readable baseBpm := by
  intro score hscore
  obtain ⟨track, -, htrack⟩ := exists_of_mem_left h hscore
  exact ⟨track, htrack⟩

/-- The tracks that are read of a section are short, and put on keys only. -/
theorem Reads.spec {m : Music} {baseBpm : Float} {tracks : List Track} (h : m.Reads baseBpm tracks) :
    ∀ track ∈ tracks, track.ticks ≤ maxTicks ∧ ∀ p, Event.on p ∈ track → Pitch.isKey p = true := by
  intro track htrack
  obtain ⟨score, -, hscore⟩ := exists_of_mem_right h htrack
  exact Score.compile_spec hscore

/-! ## The tracks of a section -/

theorem readTracks_eq_ok {music index : Nat} {baseBeats bpm : Float} {scores : List String}
    {tracks : List Track} :
    readTracks music index baseBeats bpm scores = .ok tracks ↔
      List.Forall₂ (fun score track => Score.compile score baseBeats bpm = .ok track)
        scores tracks := by
  induction scores generalizing index tracks with
  | nil =>
    rw [List.forall₂_nil_left_iff]
    constructor
    · intro h
      cases h
      rfl
    · rintro rfl
      rfl
  | cons score scores ih =>
    simp only [readTracks, Outcome.bind_eq_ok, Outcome.mapError_eq_ok, ih]
    rw [List.forall₂_cons_left_iff]
    constructor
    · rintro ⟨track, htrack, others, hothers, h⟩
      cases h
      exact ⟨track, others, htrack, hothers, rfl⟩
    · rintro ⟨track, others, htrack, hothers, rfl⟩
      exact ⟨track, htrack, others, hothers, rfl⟩

/-- A fault is that of the first score that cannot be read. -/
theorem readTracks_eq_error {music index : Nat} {baseBeats bpm : Float} {scores : List String}
    {fault : LevelFault} (h : readTracks music index baseBeats bpm scores = .error fault) :
    ∃ before score after cause, scores = before ++ score :: after ∧
      (∀ s ∈ before, ∃ track, Score.compile s baseBeats bpm = .ok track) ∧
      Score.compile score baseBeats bpm = .error cause ∧
      fault = .score music (index + before.length) cause := by
  induction scores generalizing index with
  | nil => cases h
  | cons score scores ih =>
    rcases Outcome.bind_eq_error.1 h with hfirst | ⟨track, htrack, hrest⟩
    · obtain ⟨cause, hcause, rfl⟩ := Outcome.mapError_eq_error.1 hfirst
      exact ⟨[], score, scores, cause, rfl, by simp, hcause, rfl⟩
    · have htrack := Outcome.mapError_eq_ok.1 htrack
      rcases Outcome.bind_eq_error.1 hrest with hlater | ⟨_, _, hpure⟩
      · obtain ⟨before, score', after, cause, rfl, hbefore, hcause, rfl⟩ := ih hlater
        refine ⟨score :: before, score', after, cause, rfl,
          List.forall_mem_cons.2 ⟨⟨track, htrack⟩, hbefore⟩, hcause, ?_⟩
        rw [List.length_cons, Nat.add_right_comm, Nat.add_assoc]
      · cases hpure

/-! ## The parts of a level -/

/-- The part is what a section is read into. -/
structure IsPart (baseBpm : Float) (m : Music) (part : Part Float) : Prop where
  bpm : part.bpm = scoreTempo (m.tempo baseBpm) m.baseBeats
  tracks : m.Reads baseBpm part.tracks

theorem part_eq_ok {index : Nat} {m : Music} {baseBpm : Float} {part : Part Float} :
    m.part index baseBpm = .ok part ↔ IsPart baseBpm m part := by
  simp only [Music.part, Outcome.bind_eq_ok, readTracks_eq_ok]
  constructor
  · rintro ⟨tracks, htracks, h⟩
    cases h
    exact ⟨rfl, htracks⟩
  · rintro ⟨hbpm, htracks⟩
    obtain ⟨bpm, tracks⟩ := part
    cases hbpm
    exact ⟨tracks, htracks, rfl⟩

theorem parts_eq_ok {index : Nat} {baseBpm : Float} {musics : List Music}
    {parts : List (Part Float)} :
    Music.parts index baseBpm musics = .ok parts ↔ List.Forall₂ (IsPart baseBpm) musics parts := by
  induction musics generalizing index parts with
  | nil =>
    rw [List.forall₂_nil_left_iff]
    constructor
    · intro h
      cases h
      rfl
    · rintro rfl
      rfl
  | cons m musics ih =>
    simp only [Music.parts, Outcome.bind_eq_ok, part_eq_ok, ih]
    rw [List.forall₂_cons_left_iff]
    constructor
    · rintro ⟨part, hpart, others, hothers, h⟩
      cases h
      exact ⟨part, others, hpart, hothers, rfl⟩
    · rintro ⟨part, others, hpart, hothers, rfl⟩
      exact ⟨part, hpart, others, hothers, rfl⟩

theorem parts_eq_error {index : Nat} {baseBpm : Float} {musics : List Music} {fault : LevelFault}
    (h : Music.parts index baseBpm musics = .error fault) :
    ∃ earlier m later before score after cause, musics = earlier ++ m :: later ∧
      m.scores = before ++ score :: after ∧ (∀ e ∈ earlier, e.Readable baseBpm) ∧
      (∀ s ∈ before, ∃ track, m.compile baseBpm s = .ok track) ∧
      m.compile baseBpm score = .error cause ∧
      fault = .score (index + earlier.length) before.length cause := by
  induction musics generalizing index with
  | nil => cases h
  | cons m musics ih =>
    -- the fault is in the first section, or all its scores can be read
    rcases Outcome.bind_eq_error.1 h with hfirst | ⟨part, hpart, hrest⟩
    · rcases Outcome.bind_eq_error.1 hfirst with htracks | ⟨_, _, hpure⟩
      · obtain ⟨before, score, after, cause, hscores, hbefore, hcause, rfl⟩ :=
          readTracks_eq_error htracks
        refine ⟨[], m, musics, before, score, after, cause, rfl, hscores, by simp, hbefore, hcause,
          ?_⟩
        rw [Nat.zero_add]
        rfl
      · cases hpure
    · rcases Outcome.bind_eq_error.1 hrest with hlater | ⟨_, _, hpure⟩
      · obtain ⟨earlier, m', later, before, score, after, cause, rfl, hscores, hearlier, hbefore,
          hcause, rfl⟩ := ih hlater
        refine ⟨m :: earlier, m', later, before, score, after, cause, rfl, hscores,
          List.forall_mem_cons.2 ⟨(part_eq_ok.1 hpart).tracks.readable, hearlier⟩, hbefore, hcause,
          ?_⟩
        rw [List.length_cons, Nat.add_right_comm, Nat.add_assoc]
      · cases hpure

end Music

namespace Level

/-- The tracks, section by section, are what the scores of the level are read into. -/
def Reads (level : Level) (streams : List (List Track)) : Prop :=
  List.Forall₂ (fun m tracks => m.Reads level.baseBpm tracks) level.musics streams

/-- Every score of the level can be read. -/
def Readable (level : Level) : Prop := ∀ m ∈ level.musics, m.Readable level.baseBpm

/-- Score `track` of section `music` cannot be read, for that reason, and all scores before it, by
section and then by track, can. -/
def FirstFault (level : Level) (music track : Nat) (cause : ScoreFault) : Prop :=
  ∃ earlier m later before score after, level.musics = earlier ++ m :: later ∧
    m.scores = before ++ score :: after ∧ earlier.length = music ∧ before.length = track ∧
    (∀ e ∈ earlier, e.Readable level.baseBpm) ∧
    (∀ s ∈ before, ∃ t, m.compile level.baseBpm s = .ok t) ∧
    m.compile level.baseBpm score = .error cause

theorem parts_eq_error {level : Level} {fault : LevelFault} (h : level.parts = .error fault) :
    ∃ music track cause, level.FirstFault music track cause ∧ fault = .score music track cause := by
  obtain ⟨earlier, m, later, before, score, after, cause, hmusics, hscores, hearlier, hbefore,
    hcause, rfl⟩ := Music.parts_eq_error h
  refine ⟨earlier.length, before.length, cause, ⟨earlier, m, later, before, score, after, hmusics,
    hscores, rfl, rfl, hearlier, hbefore, hcause⟩, ?_⟩
  rw [Nat.zero_add]

/-- A level with a score that cannot be read is not readable. -/
theorem FirstFault.not_readable {level : Level} {music track : Nat} {cause : ScoreFault}
    (h : level.FirstFault music track cause) : ¬level.Readable := by
  obtain ⟨earlier, m, later, before, score, after, hmusics, hscores, -, -, -, -, hcause⟩ := h
  intro hreadable
  have hm : m ∈ level.musics := by simp [hmusics]
  have hscore : score ∈ m.scores := by simp [hscores]
  obtain ⟨t, ht⟩ := hreadable m hm score hscore
  rw [hcause] at ht
  cases ht

/-- Parts that can be read are there for the timeline: aligning them does not fail. -/
theorem timeline_of_parts {level : Level} {parts : List (Part Float)}
    (h : level.parts = .ok parts) :
    ∃ aligned, level.timeline = .ok (Timeline.ofParts (Part.padAll aligned)) ∧
      List.Forall₂ Part.IsAligned parts aligned := by
  have hparts : List.Forall₂ (Music.IsPart level.baseBpm) level.musics parts :=
    Music.parts_eq_ok.1 h
  have hshort : ∀ part ∈ parts, ∀ track ∈ part.tracks, track.ticks < 2 ^ 63 := by
    intro part hpart track htrack
    obtain ⟨m, -, hm⟩ := exists_of_mem_right hparts hpart
    exact Nat.lt_of_le_of_lt (hm.tracks.spec track htrack).1 (by decide)
  obtain ⟨aligned, halign, hall⟩ := Part.alignAll_ok hshort 0
  exact ⟨aligned, Outcome.bind_eq_ok.2 ⟨parts, h, Outcome.bind_eq_ok.2 ⟨aligned, halign, rfl⟩⟩, hall⟩

/-- The tracks of a level make its parts. -/
theorem Reads.parts {level : Level} {streams : List (List Track)} (h : level.Reads streams) :
    ∃ parts, level.parts = .ok parts ∧ parts.map Part.tracks = streams := by
  obtain ⟨baseBpm, musics, audition⟩ := level
  have hparts : ∃ parts, List.Forall₂ (Music.IsPart baseBpm) musics parts ∧
      parts.map Part.tracks = streams := by
    unfold Level.Reads at h
    simp only at h
    induction h with
    | nil => exact ⟨[], .nil, rfl⟩
    | @cons m tracks _ _ hm _ ih =>
      obtain ⟨parts, hall, rfl⟩ := ih
      exact ⟨⟨_, tracks⟩ :: parts, .cons ⟨rfl, hm⟩ hall, rfl⟩
  obtain ⟨parts, hall, hmap⟩ := hparts
  exact ⟨parts, Music.parts_eq_ok.2 hall, hmap⟩

/-- **A level has a timeline just when all of its scores can be read.** -/
theorem timeline_isOk_iff (level : Level) :
    (∃ timeline, level.timeline = .ok timeline) ↔ level.Readable := by
  constructor
  · rintro ⟨timeline, h⟩
    obtain ⟨parts, hparts, -⟩ := Outcome.bind_eq_ok.1 h
    have hall : List.Forall₂ (Music.IsPart level.baseBpm) level.musics parts :=
      Music.parts_eq_ok.1 hparts
    intro m hm
    obtain ⟨part, -, hpart⟩ := exists_of_mem_left hall hm
    exact hpart.tracks.readable
  · intro h
    cases hparts : level.parts with
    | ok parts =>
      obtain ⟨aligned, htimeline, -⟩ := timeline_of_parts hparts
      exact ⟨_, htimeline⟩
    | error fault =>
      obtain ⟨music, track, cause, hfirst, -⟩ := parts_eq_error hparts
      exact absurd h hfirst.not_readable

/-- **What keeps a level from having a timeline is its first fault**, never the aligning. -/
theorem timeline_eq_error {level : Level} {fault : LevelFault} (h : level.timeline = .error fault) :
    ∃ music track cause, level.FirstFault music track cause ∧ fault = .score music track cause := by
  cases hparts : level.parts with
  | ok parts =>
    obtain ⟨aligned, htimeline, -⟩ := timeline_of_parts hparts
    rw [h] at htimeline
    cases htimeline
  | error cause =>
    have hfault : level.timeline = .error cause := Outcome.bind_eq_error.2 (Or.inl hparts)
    rw [h] at hfault
    cases hfault
    exact parts_eq_error hparts

end Level

end RhythmTiles
