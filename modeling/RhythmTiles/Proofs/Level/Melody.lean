import RhythmTiles.Proofs.Grid.Windows
import RhythmTiles.Proofs.Level.Timeline
import RhythmTiles.Proofs.Score.Melody
import RhythmTiles.Proofs.Tile.Height
import RhythmTiles.Proofs.Timeline.Pace

/-!
# Levels of melodies

In a level whose sections each have one melody, every unit is a row of the grid, whose window follows
that of the row before (`Level.Melody.windows`), and a note of the timeline (`Level.Melody.timeline`).
-/

namespace RhythmTiles

open Binary64

/-! ## Sections -/

namespace Music

/-- The ticks of a letter unit of a section. -/
def unitTicks (m : Music) : Nat := (BaseBeats.ticksPerUnit? m.baseBeats).getD 0

/-- The exact seconds of a tile: a minute times the base beats over the tempo. -/
def pace (m : Music) (baseBpm : Float) : Rat :=
  60 * (value? m.baseBeats).getD 0 / (value? (m.tempo baseBpm)).getD 0

/-- The exact seconds that units take in a section. -/
def exactSeconds (m : Music) (baseBpm : Float) (us : List NoteUnit) : Rat :=
  (us.map (NoteUnit.tiles m.unitTicks)).sum * m.pace baseBpm

/-- A section with one score, which is a melody, at no more than six thousand tiles a minute. -/
structure Melody (baseBpm : Float) (m : Music) (us : List NoteUnit) : Prop where
  scores : m.scores = [String.ofList (melodyText us)]
  notes : us ≠ []
  baseBeats : (m.baseBeats, m.unitTicks) ∈ BaseBeats.table
  plain : ∀ u ∈ us, u.Plain m.unitTicks
  limit : (us.map (NoteUnit.ticks m.unitTicks)).sum ≤ maxTicks
  finite : (m.tempo baseBpm).isFinite = true
  pos : 0 < m.tempo baseBpm
  fast : m.tempo baseBpm / m.baseBeats ≤ 6000

/-- The rows of a melody. -/
def stretch (baseBpm : Float) (m : Music) (us : List NoteUnit) : Stretch :=
  ⟨us.map (NoteUnit.tiles m.unitTicks), m.tilesPerSecond baseBpm,
    scoreTempo (m.tempo baseBpm) m.baseBeats / Float.ofNat 30, m.pace baseBpm⟩

/-- The base beats and the tempo of a section in exact numbers, within the range of melodies. -/
structure Exact (m : Music) (baseBpm : Float) (b B : Rat) : Prop where
  beats : value? m.baseBeats = some b
  tempo : value? (m.tempo baseBpm) = some B
  le_beats : 1 / 200 ≤ b
  beats_le : b ≤ 60
  pos : 0 < B
  fast : B / b ≤ 6001

namespace Exact

variable {baseBpm : Float} {m : Music} {b B : Rat} (h : m.Exact baseBpm b B)
include h

theorem beats_pos : 0 < b := lt_of_lt_of_le (by norm_num) h.le_beats

theorem pace_eq : m.pace baseBpm = 60 * b / B := by
  rw [pace, h.beats, h.tempo, Option.getD_some, Option.getD_some]

theorem pace_pos : 0 < m.pace baseBpm := by
  have hbeats := h.beats_pos
  have hpos := h.pos
  rw [h.pace_eq]
  positivity

theorem tempo_le : B ≤ 6001 * b := (div_le_iff₀ h.beats_pos).1 h.fast

theorem le_pace : 99 / 10 ^ 4 ≤ m.pace baseBpm := by
  have hpos := h.beats_pos
  have hle := h.tempo_le
  rw [h.pace_eq, le_div_iff₀ h.pos]
  linarith

theorem le_ratio (hslow : m.pace baseBpm ≤ 10 ^ 12) : 1 / 10 ^ 11 ≤ B / b := by
  have hpos := h.beats_pos
  rw [h.pace_eq, div_le_iff₀ h.pos] at hslow
  rw [le_div_iff₀ hpos]
  linarith

/-- The speed of the rows, to two roundings. -/
theorem within_tilesPerSecond (hslow : m.pace baseBpm ≤ 10 ^ 12) :
    Within 2 (m.tilesPerSecond baseBpm) (1 / m.pace baseBpm) := by
  have hpos := h.beats_pos
  have hlow := h.le_ratio hslow
  have hhigh := h.fast
  have hsixty : value? (Float.ofNat 60) = some ((60 : Nat) : Rat) := value?_ofNat (by norm_num)
  have hrate : 1 / m.pace baseBpm = B / b / (60 : Nat) := by
    rw [h.pace_eq]
    push_cast
    field_simp
  have hquotient := (within_of_value h.tempo).div_exact h.beats hpos ⟨by linarith, by linarith⟩
    (by norm_num)
  rw [hrate]
  exact hquotient.div_exact hsixty (by norm_num)
    ⟨by push_cast; linarith, by push_cast; linarith⟩ (by norm_num)

/-- The tempo of the notes, to three roundings. -/
theorem within_tempo (hslow : m.pace baseBpm ≤ 10 ^ 12) :
    Within 3 (scoreTempo (m.tempo baseBpm) m.baseBeats / Float.ofNat 30) (60 / m.pace baseBpm) := by
  have hpos := h.beats_pos
  have hlow := h.le_ratio hslow
  have hhigh := h.fast
  have htempo : 1 / 10 ^ 14 ≤ B := by
    have hscaled := (le_div_iff₀ hpos).1 hlow
    have hbeats := h.le_beats
    linarith
  have htempo' : B ≤ 6001 * 60 := by
    have hle := h.tempo_le
    have hbeats := h.beats_le
    linarith
  -- the factor of thirty is divided out again, at the cost of a rounding
  have hthirty : value? (Float.ofNat 30) = some ((30 : Nat) : Rat) := value?_ofNat (by norm_num)
  have hscale : B * (30 : Nat) / b = B / b * 30 := by
    push_cast
    ring
  have hrate : 60 / m.pace baseBpm = B * (30 : Nat) / b / (30 : Nat) := by
    rw [h.pace_eq]
    push_cast
    field_simp
  have hratio : B * (30 : Nat) / b / (30 : Nat) = B / b := by
    push_cast
    field_simp
  have hproduct := (within_of_value h.tempo).mul_exact hthirty (by norm_num)
    ⟨by push_cast; linarith, by push_cast; linarith⟩ (by norm_num)
  have hscore := hproduct.div_exact h.beats hpos
    ⟨by rw [hscale]; linarith, by rw [hscale]; linarith⟩ (by norm_num)
  rw [hrate]
  exact hscore.div_exact hthirty (by norm_num)
    ⟨by rw [hratio]; linarith, by rw [hratio]; linarith⟩ (by norm_num)

end Exact

namespace Melody

variable {baseBpm : Float} {m : Music} {us : List NoteUnit} (h : m.Melody baseBpm us)
include h

theorem ticks_le {u : NoteUnit} (hu : u ∈ us) : u.ticks m.unitTicks ≤ maxTicks :=
  (List.single_le_sum (fun _ _ => Nat.zero_le _) _ (List.mem_map_of_mem hu)).trans h.limit

theorem reads : m.Reads baseBpm [melodyTrack m.unitTicks us] := by
  have hticks := BaseBeats.ticksPerUnit?_of_mem_table h.baseBeats
  unfold Reads
  rw [h.scores]
  refine .cons ?_ .nil
  unfold compile Score.compile
  rw [hticks]
  simp only [String.toList_ofList]
  exact Score.read_melodyText h.plain h.limit

/-- Each unit is a row as high as its ticks say. -/
theorem rows : Row.ofMusic m = us.map fun u => ⟨.single, u.tiles m.unitTicks⟩ := by
  have hpieces := Piece.ofScore_melodyText h.notes h.plain
  have hcovered : ∀ pieces, PieceWindow.coveredRests pieces [] = [] := by
    intro pieces
    simp [PieceWindow.coveredRests]
  unfold Row.ofMusic
  rw [h.scores]
  simp only [String.toList_ofList, List.map_nil, hcovered, hpieces]
  -- no rest is covered, so the place of a piece does not count
  refine (List.map_congr_left (g := Row.ofPiece m.baseBeats false ∘ Prod.fst) fun _ _ => rfl).trans ?_
  rw [← List.map_map, List.zipIdx_map_fst, List.map_map]
  refine List.map_congr_left fun u hu => ?_
  have hlimit := h.ticks_le hu
  have hunit : 0 < m.unitTicks := Nat.pos_of_mul_pos_left (h.plain u hu).pos
  have hunits : u.units ≤ 0xFFFFFF := (Nat.le_mul_of_pos_right _ hunit).trans hlimit
  have hheight : Row.heightOf u.units m.baseBeats = u.tiles m.unitTicks := by
    rw [Row.heightOf_of_mem_table h.baseBeats hunits]
    exact Nat.max_eq_right (h.plain u hu).tiles_pos
  simp [Row.ofPiece, Piece.isRest, hheight]

theorem exists_exact : ∃ b B : Rat, m.Exact baseBpm b B := by
  obtain ⟨b, hb, -, hratio⟩ := BaseBeats.tileRatio_of_mem_table h.baseBeats
  obtain ⟨B, hB⟩ := value_of_isFinite h.finite
  obtain ⟨hpos, hlt⟩ := hratio.pos_of_ratio
  have hlow : 1 / 200 ≤ b := by
    have hhalf := hratio.half_lt_ratio
    have ht : (m.unitTicks : Rat) ≤ 2 ^ 11 := by exact_mod_cast hratio.ticks_lt.le
    have hscaled := mul_le_mul_of_nonneg_left ht hpos.le
    linarith
  have hzero : value? (0 : Float) = some 0 := Stretch.value?_zero
  have hBpos : 0 < B := (lt_iff hzero hB).1 h.pos
  have hsix : value? (6000 : Float) = some ((6000 : Nat) : Rat) := value?_ofNat (by norm_num)
  obtain ⟨r, hr, hnearest⟩ := value_of_div_le hB hb hBpos.le hpos hsix h.fast
  have hle := (le_iff hr hsix).1 h.fast
  -- the quotient is rounded, and six thousand and one would not be rounded down so far
  refine ⟨b, B, hb, hB, hlow, hlt.le, hBpos, le_of_not_gt fun hlarge => ?_⟩
  have hge := hnearest.ge (grid_natCast (n := 6001) (by norm_num)) (by exact_mod_cast hlarge.le)
  have hfalse := hge.trans hle
  norm_num at hfalse

/-- A melody lasts as long as its rows. -/
theorem sum_ticks : (us.map (NoteUnit.ticks m.unitTicks)).sum =
    ticksPerQuarter * (us.map (NoteUnit.tiles m.unitTicks)).sum := by
  rw [← List.sum_map_mul_left]
  exact congrArg List.sum (List.map_congr_left fun u hu => (h.plain u hu).ticks_eq)

theorem pace_pos : 0 < m.pace baseBpm := by
  obtain ⟨b, B, hexact⟩ := h.exists_exact
  exact hexact.pace_pos

/-- A section takes no less than one of its tiles. -/
theorem pace_le_exactSeconds : m.pace baseBpm ≤ m.exactSeconds baseBpm us := by
  obtain ⟨u, hu⟩ := List.exists_mem_of_ne_nil _ h.notes
  have hsum : u.tiles m.unitTicks ≤ (us.map (NoteUnit.tiles m.unitTicks)).sum :=
    List.single_le_sum (fun _ _ => Nat.zero_le _) _ (List.mem_map_of_mem hu)
  have htiles : (1 : Rat) ≤ (us.map (NoteUnit.tiles m.unitTicks)).sum := by
    exact_mod_cast (h.plain u hu).tiles_pos.trans_le hsum
  exact le_mul_of_one_le_left h.pace_pos.le htiles

/-- **Rows and notes both go by the pace of the section**, unless it is far too slow. -/
theorem accurate (hslow : m.pace baseBpm ≤ 10 ^ 12) : (m.stretch baseBpm us).Accurate := by
  obtain ⟨b, B, hexact⟩ := h.exists_exact
  constructor
  · exact hexact.within_tilesPerSecond hslow
  · exact hexact.within_tempo hslow
  · exact hexact.le_pace
  · intro k hk
    obtain ⟨u, hu, rfl⟩ := List.mem_map.1 hk
    exact (h.plain u hu).tiles_pos
  · simpa [stretch] using h.notes
  · have hlimit := h.limit
    rw [h.sum_ticks, maxTicks, ticksPerQuarter] at hlimit
    show (us.map (NoteUnit.tiles m.unitTicks)).sum < 2 ^ 20
    omega

end Melody

end Music

/-! ## Notes in turn -/

namespace Span

theorem inTurn_shift (start shift : Nat) (notes : List (Pitch × Nat)) :
    (inTurn start notes).map (Span.shift shift) = inTurn (shift + start) notes := by
  induction notes generalizing start with
  | nil => rfl
  | cons note notes ih => simp [inTurn, ih, Span.shift, Nat.add_assoc]

theorem inTurn_append (start : Nat) (notes others : List (Pitch × Nat)) :
    inTurn start (notes ++ others) =
      inTurn start notes ++ inTurn (start + (notes.map Prod.snd).sum) others := by
  induction notes generalizing start with
  | nil => rfl
  | cons note notes ih => simp [inTurn, ih, Nat.add_assoc]

theorem length_inTurn (start : Nat) (notes : List (Pitch × Nat)) :
    (inTurn start notes).length = notes.length := by
  induction notes generalizing start with
  | nil => rfl
  | cons note notes ih => simp [inTurn, ih]

theorem getElem?_inTurn {notes : List (Pitch × Nat)} {k : Nat} {note : Pitch × Nat}
    (h : notes[k]? = some note) (start : Nat) :
    ∃ stop, (inTurn start notes)[k]? =
      some ⟨note.1, start + ((notes.map Prod.snd).take k).sum, stop⟩ := by
  induction notes generalizing k start with
  | nil => cases h
  | cons first notes ih =>
    cases k with
    | zero =>
      cases h
      exact ⟨_, rfl⟩
    | succ k =>
      obtain ⟨stop, hspan⟩ := ih h (start + first.2)
      refine ⟨stop, hspan.trans ?_⟩
      rw [List.map_cons, List.take_succ_cons, List.sum_cons, Nat.add_assoc]

theorem pairwise_inTurn (start : Nat) (notes : List (Pitch × Nat)) :
    (inTurn start notes).Pairwise (fun a b => a.start ≤ b.start) ∧
      ∀ span ∈ inTurn start notes, start ≤ span.start := by
  induction notes generalizing start with
  | nil => simp [inTurn]
  | cons note notes ih =>
    obtain ⟨hpairwise, hle⟩ := ih (start + note.2)
    have hlater : ∀ span ∈ inTurn (start + note.2) notes, start ≤ span.start :=
      fun span hspan => Nat.le_of_add_right_le (hle span hspan)
    exact ⟨List.pairwise_cons.2 ⟨hlater, hpairwise⟩,
      List.forall_mem_cons.2 ⟨Nat.le_refl start, hlater⟩⟩

end Span

namespace Timeline

variable {R : Type} [Quantity R]

theorem notes_ofParts {parts : List (Part R)} (h : ∀ part ∈ parts, part.tracks.length = 1) :
    (ofParts parts).notes = (spansOf 0 (placeParts 0 parts)).map fun span =>
      (0, timeSpan (temposOf (placeParts 0 parts)) span) := by
  cases parts with
  | nil => simp [ofParts, notes, Part.widest, placeParts, spansOf]
  | cons part parts =>
    have hwidest : Part.widest (part :: parts) = 1 := by
      apply Nat.le_antisymm
      · exact Part.widest_le.2 fun part hpart => (h part hpart).le
      · rw [← h part List.mem_cons_self]
        exact Part.widest_le.1 le_rfl part List.mem_cons_self
    unfold ofParts notes
    simp only [hwidest]
    simp [Function.comp_def]

/-- Where parts are stretches, the tempo changes where these start. -/
theorem map_placeParts {ss : List Stretch} {parts : List (Part Float)}
    (h : List.Forall₂ (fun s part => part.ticks = RhythmTiles.ticksPerQuarter * s.tiles.sum ∧
      part.bpm / Float.ofNat 30 = s.tempo) ss parts) (start : Nat) :
    (placeParts start parts).map (fun placed => (placed.1, placed.2.bpm / Float.ofNat 30)) =
      Stretch.changes start ss := by
  induction h generalizing start with
  | nil => rfl
  | @cons s part ss parts hone _ ih =>
    obtain ⟨hticks, htempo⟩ := hone
    rw [placeParts, List.map_cons, ih, hticks, htempo]
    rfl

end Timeline

/-! ## Levels -/

namespace Level

/-- The sections of the level, with the units of their melodies. -/
structure Melody (level : Level) (sections : List (Music × List NoteUnit)) : Prop where
  musics : level.musics = sections.map Prod.fst
  melodies : ∀ s ∈ sections, s.1.Melody level.baseBpm s.2

/-- The pitches of all units, with their lengths. -/
def notesOf (sections : List (Music × List NoteUnit)) : List (Pitch × Nat) :=
  sections.flatMap fun s => melodyNotes s.1.unitTicks s.2

def stretches (level : Level) (sections : List (Music × List NoteUnit)) : List Stretch :=
  sections.map fun s => s.1.stretch level.baseBpm s.2

def windows (g : Geometry Float) (level : Level) : List (RowWindow Float) :=
  RowWindow.ofRows (PlacedRow.stack g (Layout.ofLevel level).rows) (Layout.ofLevel level).sections

def unitsOf (sections : List (Music × List NoteUnit)) : List NoteUnit := sections.flatMap Prod.snd

def exactSeconds (level : Level) (sections : List (Music × List NoteUnit)) : Rat :=
  (sections.map fun s => s.1.exactSeconds level.baseBpm s.2).sum

theorem sum_seconds (level : Level) (sections : List (Music × List NoteUnit)) :
    (Stretch.seconds (level.stretches sections)).sum = level.exactSeconds sections := by
  induction sections with
  | nil => rfl
  | cons s sections ih =>
    show (Stretch.seconds (s.1.stretch level.baseBpm s.2 :: level.stretches sections)).sum = _
    rw [Stretch.sum_seconds_cons, ih]
    rfl

theorem length_rows (level : Level) (sections : List (Music × List NoteUnit)) :
    (Stretch.rows (level.stretches sections)).length = (unitsOf sections).length := by
  simp [Stretch.rows, stretches, unitsOf, Music.stretch, List.length_flatMap, List.flatMap_map,
    Function.comp_def]

theorem heard_melodies {sections : List (Music × List NoteUnit)}
    (h : ∀ s ∈ sections, ∀ u ∈ s.2, u.Plain s.1.unitTicks) :
    Timeline.heard (sections.map fun s => [melodyTrack s.1.unitTicks s.2]) 0 =
      Span.inTurn 0 (notesOf sections) := by
  induction sections with
  | nil => rfl
  | cons s sections ih =>
    obtain ⟨hs, hsections⟩ := List.forall_mem_cons.1 h
    have hreference : Part.referenceTicks [melodyTrack s.1.unitTicks s.2] =
        ((melodyNotes s.1.unitTicks s.2).map Prod.snd).sum := by
      show (melodyTrack s.1.unitTicks s.2).ticks = _
      rw [ticks_melodyTrack, melodyNotes, List.map_map]
      rfl
    have hheard : Timeline.heardOf [melodyTrack s.1.unitTicks s.2] 0 =
        Span.inTurn 0 (melodyNotes s.1.unitTicks s.2) := notesWithin_melodyTrack hs
    rw [List.map_cons, Timeline.heard_cons, ih hsections, hheard, hreference, Span.inTurn_shift,
      Span.inTurn_shift, notesOf, notesOf, List.flatMap_cons, Span.inTurn_append]
    simp only [Nat.zero_add, Nat.add_zero]

namespace Melody

variable {level : Level} {sections : List (Music × List NoteUnit)} (h : level.Melody sections)
include h

theorem reads : level.Reads (sections.map fun s => [melodyTrack s.1.unitTicks s.2]) := by
  unfold Level.Reads
  rw [h.musics, List.forall₂_map_left_iff, List.forall₂_map_right_iff, List.forall₂_same]
  exact fun s hs => (h.melodies s hs).reads

/-- The parts that the timeline is made of: a single track for each melody. -/
theorem parts : ∃ parts : List (Part Float), level.timeline = .ok (Timeline.ofParts parts) ∧
    List.Forall₂ Timeline.Plays (sections.map fun s => [melodyTrack s.1.unitTicks s.2]) parts ∧
    (∀ part ∈ parts, part.tracks.length = 1) ∧
    sections.map (fun s => Music.scoreTempo (s.1.tempo level.baseBpm) s.1.baseBeats) =
      parts.map Part.bpm := by
  obtain ⟨parts, hparts, hstreams⟩ := h.reads.parts
  obtain ⟨aligned, htimeline, haligned⟩ := timeline_of_parts hparts
  have hread : List.Forall₂ (Music.IsPart level.baseBpm) level.musics parts :=
    Music.parts_eq_ok.1 hparts
  have hsingle : ∀ part ∈ aligned, part.tracks.length = 1 := by
    intro part hpart
    obtain ⟨unaligned, hmem, hfit⟩ := exists_of_mem_right haligned hpart
    have htracks : unaligned.tracks ∈ parts.map Part.tracks := List.mem_map_of_mem hmem
    rw [hstreams] at htracks
    obtain ⟨s, -, hs⟩ := List.mem_map.1 htracks
    rw [← hfit.tracks.length_eq, ← hs, List.length_singleton]
  refine ⟨Part.padAll aligned, htimeline, ?_, ?_, ?_⟩
  · rw [← hstreams, Part.padAll, List.forall₂_map_left_iff, List.forall₂_map_right_iff]
    exact haligned.imp fun part other hone => Timeline.plays_pad hone _
  · intro part hpart
    obtain ⟨part, hmem, rfl⟩ := List.mem_map.1 hpart
    have hwidest := Part.widest_le.2 fun other hother => (hsingle other hother).le
    rw [Part.length_pad, hsingle part hmem, Nat.max_eq_right hwidest]
  · have hmusics := map_eq_map_of_forall₂ (hread.imp fun m part hone => hone.bpm.symm)
    have hfit := map_eq_map_of_forall₂ (haligned.imp fun part other hone => hone.bpm.symm)
    rw [h.musics, List.map_map] at hmusics
    rw [Part.padAll, List.map_map]
    exact hmusics.trans hfit

/-- **The timeline of melodies**: one track, with the notes of all units in turn. -/
theorem timeline : ∃ timeline tempos, level.timeline = .ok timeline ∧
    tempos.map (fun change => (change.ticks, change.bpm)) =
      Stretch.changes 0 (level.stretches sections) ∧
    timeline.notes = (Span.inTurn 0 (notesOf sections)).map fun span =>
      (0, Timeline.timeSpan tempos span) := by
  obtain ⟨parts, htimeline, hplays, hsingle, hbpm⟩ := h.parts
  have hstretches : List.Forall₂ (fun s part => part.ticks = ticksPerQuarter * s.tiles.sum ∧
      part.bpm / Float.ofNat 30 = s.tempo) (level.stretches sections) parts := by
    rw [List.forall₂_map_left_iff] at hplays
    rw [stretches, List.forall₂_map_left_iff]
    have hall := (List.forall₂_and_left _ _).2 ⟨h.melodies, forall₂_and_of_map_eq hplays hbpm⟩
    refine hall.imp fun s part hone => ?_
    obtain ⟨hmelody, hpart, htempo⟩ := hone
    constructor
    · rw [hpart.ticks]
      show (melodyTrack s.1.unitTicks s.2).ticks = _
      rw [ticks_melodyTrack, hmelody.sum_ticks]
      rfl
    · rw [← htempo]
      rfl
  refine ⟨_, Timeline.temposOf (Timeline.placeParts 0 parts), htimeline, ?_, ?_⟩
  · rw [Timeline.map_temposOf]
    exact Timeline.map_placeParts hstretches 0
  · have hsorted : (Span.inTurn 0 (notesOf sections)).Pairwise
        fun a b => decide (a.start ≤ b.start) = true :=
      (Span.pairwise_inTurn 0 _).1.imp fun hle => by simpa using hle
    rw [Timeline.notes_ofParts hsingle, Timeline.spansOf_placeParts hplays,
      heard_melodies fun s hs => (h.melodies s hs).plain, List.mergeSort_of_pairwise hsorted]

/-- Each unit of the level is a row of the grid, at the speed of its section. -/
theorem layout : (Layout.ofLevel level).rows =
      (Stretch.rows (level.stretches sections)).map (fun row => ⟨.single, row.1⟩) ∧
    Layout.speeds level.baseBpm level.musics =
      (Stretch.rows (level.stretches sections)).map (fun row => row.2.speed) := by
  have hrows : ∀ s ∈ sections, Row.ofMusic s.1 =
      s.2.map fun u => ⟨.single, u.tiles s.1.unitTicks⟩ := fun s hs => (h.melodies s hs).rows
  constructor
  · rw [Layout.ofLevel, Layout.rows_ofMusics, h.musics, Stretch.rows, stretches, List.flatMap_map,
      List.flatMap_map, List.map_flatMap]
    refine List.flatMap_congr fun s hs => ?_
    rw [hrows s hs, Music.stretch, List.map_map, List.map_map]
    rfl
  · rw [Layout.speeds, h.musics, Stretch.rows, stretches, List.flatMap_map, List.flatMap_map,
      List.map_flatMap]
    refine List.flatMap_congr fun s hs => ?_
    rw [hrows s hs, Music.stretch, List.map_map, List.map_map, List.length_map]
    exact List.map_const'.symm

/-- The rows of melodies pass at usable speeds. -/
theorem usable_speeds (haccurate : ∀ s ∈ level.stretches sections, s.Accurate) :
    ∀ speed ∈ Layout.speeds level.baseBpm level.musics,
      Quantity.isFinite speed = true ∧ Quantity.ofNat 0 < speed := by
  intro speed hspeed
  rw [h.layout.2] at hspeed
  obtain ⟨row, hrow, rfl⟩ := List.mem_map.1 hspeed
  exact (haccurate _ (Stretch.mem_rows hrow).1).usable

/-- The rows of melodies take as long as those of their stretches. -/
theorem durations_stackFrom (g : Geometry Float) (index : Nat) (bottom : Float) :
    RowWindow.durations (PlacedRow.stackFrom g index bottom (Layout.ofLevel level).rows)
      (Layout.speeds level.baseBpm level.musics) = Stretch.rowSeconds (level.stretches sections) := by
  obtain ⟨hrows, hspeeds⟩ := h.layout
  have htiles : (PlacedRow.stackFrom g index bottom (Layout.ofLevel level).rows).map PlacedRow.tiles =
      (Stretch.rows (level.stretches sections)).map Prod.fst := by
    rw [PlacedRow.map_tiles_stackFrom, hrows, List.map_map]
    rfl
  have hzip : ∀ rows : List (PlacedRow Float), ∀ speeds : List Float,
      RowWindow.durations rows speeds =
        List.zipWith (fun k speed => Float.ofNat k / speed) (rows.map PlacedRow.tiles) speeds := by
    intro rows speeds
    rw [List.zipWith_map_left]
    rfl
  rw [hzip, htiles, hspeeds, List.zipWith_map, List.zipWith_self]
  rfl

/-- The windows of the rows lie between the edges of the stretches. -/
theorem windows (haccurate : ∀ s ∈ level.stretches sections, s.Accurate) (g : Geometry Float) :
    let ss := level.stretches sections
    (level.windows g).length = (Stretch.rows ss).length ∧
      ∀ k < (Stretch.rows ss).length, ∃ bottom height tiles, (level.windows g)[k]? =
        some ⟨⟨k + 1, false, bottom, height, tiles, 1⟩, Stretch.edge ss k, Stretch.edge ss (k + 1)⟩ := by
  intro ss
  obtain ⟨hrows, hspeeds⟩ := h.layout
  obtain ⟨placed, hplaced⟩ : ∃ placed, placed = PlacedRow.stackFrom g 1
      (g.viewportHeight - g.baseTileHeight) (Layout.ofLevel level).rows := ⟨_, rfl⟩
  -- the start row has no window, so only the rows above it are followed
  have hwindows : level.windows g = RowWindow.follow (Layout.ofLevel level).sections (Quantity.ofNat 0) 0
      placed := by
    rw [hplaced]
    rfl
  have hlength : placed.length = (Stretch.rows ss).length := by
    rw [hplaced, PlacedRow.length_stackFrom, hrows, List.length_map]
  have hsections : ∀ k speed, (Layout.speeds level.baseBpm level.musics)[k]? = some speed →
      ∃ s, (Layout.ofLevel level).sections.find? (fun s => s.containsRow (0 + k)) = some s ∧
        s.tilesPerSecond = speed := fun k speed hk => Layout.find?_sections hk 0
  have hstart : ∀ row ∈ placed, row.isStart = false := by
    intro row hrow
    rw [hplaced] at hrow
    exact PlacedRow.isStart_of_mem_stackFrom hrow
  obtain ⟨hcount, hget⟩ := RowWindow.follow_eq (by rw [hspeeds, List.length_map, hlength]) hstart
    (h.usable_speeds haccurate) hsections (Quantity.ofNat 0)
  rw [hwindows]
  refine ⟨hcount.trans hlength, fun k hk => ?_⟩
  have hrow : (Layout.ofLevel level).rows[k]? = some ⟨.single, ((Stretch.rows ss)[k]).1⟩ := by
    rw [hrows, List.getElem?_map, List.getElem?_eq_getElem hk]
    rfl
  obtain ⟨bottom, height, hplace⟩ := PlacedRow.getElem?_stackFrom g hrow 1
    (g.viewportHeight - g.baseTileHeight)
  rw [← hplaced] at hplace
  refine ⟨bottom, height, ((Stretch.rows ss)[k]).1, ?_⟩
  rw [hget k _ hplace, hplaced, h.durations_stackFrom, Nat.add_comm 1 k]
  rfl

/-- A note of the timeline is that of its unit, and starts where its row does. -/
theorem getElem?_inTurn {k : Nat} {u : NoteUnit} (hk : (unitsOf sections)[k]? = some u) :
    ∃ stop, (Span.inTurn 0 (notesOf sections))[k]? =
      some ⟨u.pitch, Stretch.tickOf 0 (level.stretches sections) k, stop⟩ := by
  have hpitches : (notesOf sections).map Prod.fst = (unitsOf sections).map NoteUnit.pitch := by
    rw [notesOf, unitsOf, List.map_flatMap, List.map_flatMap]
    refine List.flatMap_congr fun s hs => ?_
    rw [melodyNotes, List.map_map]
    rfl
  have hticks : (notesOf sections).map Prod.snd =
      ((Stretch.rows (level.stretches sections)).map Prod.fst).map (ticksPerQuarter * ·) := by
    rw [notesOf, Stretch.rows, stretches, List.flatMap_map, List.map_map, List.map_flatMap,
      List.map_flatMap]
    refine List.flatMap_congr fun s hs => ?_
    rw [melodyNotes, Music.stretch, List.map_map, List.map_map, List.map_map]
    exact List.map_congr_left fun u hu => ((h.melodies s hs).plain u hu).ticks_eq
  have hnote := congrArg (·[k]?) hpitches
  simp only [List.getElem?_map, hk, Option.map_some, Option.map_eq_some_iff] at hnote
  obtain ⟨note, hnote, hpitch⟩ := hnote
  obtain ⟨stop, hspan⟩ := Span.getElem?_inTurn hnote 0
  refine ⟨stop, hspan.trans ?_⟩
  rw [hpitch, hticks, ← List.map_take, List.sum_map_mul_left, List.map_id']
  rfl

/-- The rows and the notes of a level of melodies are accurate, unless it is far too long. -/
theorem accurate (hlimit : (unitsOf sections).length * level.exactSeconds sections ≤ 10 ^ 12) :
    ∀ s ∈ level.stretches sections, s.Accurate := by
  intro stretch hstretch
  obtain ⟨s, hs, rfl⟩ := List.mem_map.1 hstretch
  have hmelody := h.melodies s hs
  have hnonneg : ∀ a ∈ sections.map (fun s => s.1.exactSeconds level.baseBpm s.2), 0 ≤ a := by
    intro a ha
    obtain ⟨s, hs, rfl⟩ := List.mem_map.1 ha
    exact (h.melodies s hs).pace_pos.le.trans (h.melodies s hs).pace_le_exactSeconds
  have hcount : (1 : Rat) ≤ (unitsOf sections).length := by
    obtain ⟨u, hu⟩ := List.exists_mem_of_ne_nil _ hmelody.notes
    exact_mod_cast List.length_pos_of_mem (List.mem_flatMap.2 ⟨s, hs, hu⟩)
  refine hmelody.accurate ?_
  calc s.1.pace level.baseBpm
      ≤ s.1.exactSeconds level.baseBpm s.2 := hmelody.pace_le_exactSeconds
    _ ≤ level.exactSeconds sections := List.single_le_sum hnonneg _ (List.mem_map.2 ⟨s, hs, rfl⟩)
    _ ≤ (unitsOf sections).length * level.exactSeconds sections :=
        le_mul_of_one_le_left (List.sum_nonneg hnonneg) hcount
    _ ≤ 10 ^ 12 := hlimit

end Melody

end Level

end RhythmTiles
