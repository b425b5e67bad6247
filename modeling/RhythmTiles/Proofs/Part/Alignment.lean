import RhythmTiles.Part.Basic
import RhythmTiles.Proofs.Outcome
import RhythmTiles.Proofs.SideBySide
import RhythmTiles.Proofs.Track.Trim

/-!
# Aligned and padded parts

Aligning never fails on tracks that a signed word can measure: every track fits the first one, and is
heard as far as the first one lasts (`align_ok`, `alignAll_ok`); aligning again changes nothing
(`align_cuts`). Padding adds tracks that nothing is heard of (`notesAt_pad`), and neither an aligned part
nor a padded one lasts longer than before (`ticks_pad`).
-/

namespace RhythmTiles

namespace Part

variable {R : Type}

/-- The length that the first of some tracks sets for all of them. -/
def referenceTicks (tracks : List Track) : Nat := (tracks.head?.map Track.ticks).getD 0

theorem referenceTicks_lt {tracks : List Track} (h : ∀ track ∈ tracks, track.ticks < 2 ^ 63) :
    referenceTicks tracks < 2 ^ 63 := by
  cases tracks with
  | nil => exact Nat.two_pow_pos 63
  | cons reference others => exact h reference List.mem_cons_self

/-- `aligned` is `track` brought to a length: it lasts as long, and is heard as far. -/
structure AlignedTo (limit : Nat) (track aligned : Track) : Prop where
  ticks : aligned.ticks = limit
  notes : aligned.notes = track.notesWithin limit

/-- `aligned` is `part` with every track brought to the length of the first. -/
structure IsAligned (part aligned : Part R) : Prop where
  bpm : aligned.bpm = part.bpm
  tracks : List.Forall₂ (AlignedTo (referenceTicks part.tracks)) part.tracks aligned.tracks

/-! ## Aligning -/

theorem fitTracks_ok (music : Nat) {reference : Track} {tracks : List Track}
    (href : reference.ticks < 2 ^ 63) (h : ∀ track ∈ tracks, track.ticks < 2 ^ 63) (index : Nat) :
    ∃ fitted, fitTracks music index reference tracks = .ok fitted ∧
      List.Forall₂ (AlignedTo reference.ticks) tracks (fitted.map Track.silenceEmpty) := by
  induction tracks generalizing index with
  | nil => exact ⟨[], rfl, .nil⟩
  | cons track tracks ih =>
    obtain ⟨htrack, hrest⟩ := List.forall_mem_cons.1 h
    obtain ⟨fitted, hfit, hticks, hnotes⟩ := Track.fit_ok href htrack
    obtain ⟨others, hothers, haligned⟩ := ih hrest (index + 1)
    refine ⟨fitted :: others, ?_, ?_⟩
    · simp only [fitTracks, hfit, hothers]
      rfl
    · exact .cons ⟨(Track.ticks_silenceEmpty fitted).trans hticks, hnotes⟩ haligned

/-- **Aligning succeeds**, whatever the tracks hold. -/
theorem align_ok (music : Nat) {part : Part R} (h : ∀ track ∈ part.tracks, track.ticks < 2 ^ 63) :
    ∃ aligned, part.align music = .ok aligned ∧ part.IsAligned aligned := by
  obtain ⟨bpm, tracks⟩ := part
  cases tracks with
  | nil => exact ⟨⟨bpm, []⟩, rfl, rfl, .nil⟩
  | cons reference others =>
    obtain ⟨href, hothers⟩ := List.forall_mem_cons.1 h
    obtain ⟨fitted, hfit, haligned⟩ := fitTracks_ok music href hothers 1
    refine ⟨⟨bpm, (reference :: fitted).map Track.silenceEmpty⟩, ?_, rfl, ?_⟩
    · simp only [align, hfit]
      rfl
    · exact .cons ⟨Track.ticks_silenceEmpty reference, reference.notes_silenceEmpty_self⟩ haligned

theorem alignAll_ok {parts : List (Part R)}
    (h : ∀ part ∈ parts, ∀ track ∈ part.tracks, track.ticks < 2 ^ 63) (index : Nat) :
    ∃ aligned, alignAll index parts = .ok aligned ∧ List.Forall₂ IsAligned parts aligned := by
  induction parts generalizing index with
  | nil => exact ⟨[], rfl, .nil⟩
  | cons part parts ih =>
    obtain ⟨hpart, hrest⟩ := List.forall_mem_cons.1 h
    obtain ⟨aligned, halign, hone⟩ := align_ok index hpart
    obtain ⟨others, hothers, hall⟩ := ih hrest (index + 1)
    refine ⟨aligned :: others, ?_, .cons hone hall⟩
    simp only [alignAll, halign, hothers]
    rfl

/-! ## Aligning twice -/

theorem fitTracks_of_ticks_eq (music : Nat) {reference : Track} {tracks : List Track}
    (href : reference.ticks < 2 ^ 63) (h : ∀ track ∈ tracks, track.ticks = reference.ticks)
    (index : Nat) : fitTracks music index reference tracks = .ok tracks := by
  induction tracks generalizing index with
  | nil => rfl
  | cons track tracks ih =>
    obtain ⟨htrack, hrest⟩ := List.forall_mem_cons.1 h
    simp only [fitTracks, Track.fit_of_ticks_eq href htrack, ih hrest]
    rfl

/-- A part whose tracks are equally long, without empty notes, stays as it is. -/
theorem align_of_ticks_eq (music : Nat) {part : Part R} {limit : Nat} (hlimit : limit < 2 ^ 63)
    (hticks : ∀ track ∈ part.tracks, track.ticks = limit)
    (hsilent : ∀ track ∈ part.tracks, track.silenceEmpty = track) : part.align music = .ok part := by
  obtain ⟨bpm, tracks⟩ := part
  cases tracks with
  | nil => rfl
  | cons reference others =>
    obtain ⟨href, hothers⟩ := List.forall_mem_cons.1 hticks
    have hfit := fitTracks_of_ticks_eq music (href ▸ hlimit)
      (fun track htrack => (hothers track htrack).trans href.symm) 1
    have hmap : (reference :: others).map Track.silenceEmpty = reference :: others := by
      rw [List.map_congr_left hsilent, List.map_id']
    refine Outcome.bind_eq_ok.2 ⟨others, hfit, ?_⟩
    rw [hmap]
    rfl

/-- In an aligned part there is nothing left to silence. -/
theorem silenceEmpty_of_mem_align {music : Nat} {part aligned : Part R}
    (h : part.align music = .ok aligned) : ∀ track ∈ aligned.tracks, track.silenceEmpty = track := by
  obtain ⟨bpm, tracks⟩ := part
  cases tracks with
  | nil =>
    cases h
    simp
  | cons reference others =>
    obtain ⟨fitted, -, h⟩ := Outcome.bind_eq_ok.1 h
    cases h
    intro track htrack
    obtain ⟨own, -, rfl⟩ := List.mem_map.1 htrack
    exact Track.silenceEmpty_idem own

/-- **Aligning cuts every track of a part at the length of the first**, or lengthens it to that, and a
part that has been aligned is left alone. -/
theorem align_cuts (music : Nat) (part : Part R)
    (h : ∀ track ∈ part.tracks, track.ticks < 2 ^ 63) :
    ∃ aligned, part.align music = .ok aligned ∧ aligned.bpm = part.bpm ∧
      aligned.tracks.length = part.tracks.length ∧
      (∀ track ∈ aligned.tracks, track.ticks = referenceTicks part.tracks) ∧
      aligned.tracks.map Track.notes = part.tracks.map (fun track =>
        (track.notes.map (Span.cut (referenceTicks part.tracks))).filter Span.sounds) ∧
      ∀ again, aligned.align again = .ok aligned := by
  obtain ⟨aligned, halign, hbpm, htracks⟩ := align_ok music h
  have hticks : ∀ track ∈ aligned.tracks, track.ticks = referenceTicks part.tracks := by
    intro track htrack
    obtain ⟨_, -, hone⟩ := exists_of_mem_right htracks htrack
    exact hone.ticks
  have hnotes : aligned.tracks.map Track.notes =
      part.tracks.map (Track.notesWithin (referenceTicks part.tracks)) :=
    (map_eq_map_of_forall₂ (htracks.imp fun _ _ hone => hone.notes.symm)).symm
  refine ⟨aligned, halign, hbpm, htracks.length_eq.symm, hticks, ?_, fun again => ?_⟩
  · rw [hnotes]
    exact List.map_congr_left fun track _ => track.notesWithin_eq_cut _
  · exact align_of_ticks_eq again (referenceTicks_lt h) hticks (silenceEmpty_of_mem_align halign)

/-- The second track is cut at a tick where two notes of one pitch start, behind an end of nothing; the
third is too short, and its first note is empty. -/
theorem align_cuts_nested :
    let part : Part Float := ⟨60.0, [[.delay 10], [.off 60, .on 60, .delay 10, .on 60, .on 60, .delay 5,
      .off 60, .off 60, .off 60], [.on 62, .off 62, .on 62, .delay 4, .off 62]]⟩
    (∀ track ∈ part.tracks, track.ticks < 2 ^ 63) ∧
      ∃ aligned, part.align 3 = .ok aligned ∧ aligned.tracks.map Track.ticks = [10, 10, 10] ∧
        aligned.tracks.map Track.notes = [[], [⟨60, 0, 10⟩], [⟨62, 0, 4⟩]] ∧
        aligned.align 4 = .ok aligned := by
  intro part
  have hshort : ∀ track ∈ part.tracks, track.ticks < 2 ^ 63 := by decide
  obtain ⟨aligned, halign, -, hlength, hticks, hnotes, hagain⟩ := align_cuts 3 part hshort
  refine ⟨hshort, aligned, halign, ?_, hnotes.trans (by decide), hagain 4⟩
  rw [List.map_congr_left hticks, List.map_const', hlength]
  rfl

/-! ## Greatest members -/

theorem foldl_max_le {ns : List Nat} {low high : Nat} :
    ns.foldl max low ≤ high ↔ low ≤ high ∧ ∀ n ∈ ns, n ≤ high := by
  induction ns generalizing low with
  | nil => simp
  | cons n ns ih =>
    rw [List.foldl_cons, ih, List.forall_mem_cons, Nat.max_le, and_assoc]

theorem ticks_le {part : Part R} {high : Nat} :
    part.ticks ≤ high ↔ ∀ track ∈ part.tracks, track.ticks ≤ high := by
  unfold ticks
  rw [foldl_max_le]
  simp

theorem widest_le {parts : List (Part R)} {high : Nat} :
    widest parts ≤ high ↔ ∀ part ∈ parts, part.tracks.length ≤ high := by
  unfold widest
  rw [foldl_max_le]
  simp

/-- An aligned part lasts as long as its first track did. -/
theorem IsAligned.ticks {part aligned : Part R} (h : part.IsAligned aligned) :
    aligned.ticks = referenceTicks part.tracks := by
  obtain ⟨bpm, tracks⟩ := part
  obtain ⟨bpm', tracks'⟩ := aligned
  have htracks := h.tracks
  simp only at htracks
  have hall : ∀ track ∈ tracks', track.ticks = referenceTicks tracks := by
    intro track htrack
    obtain ⟨_, -, hone⟩ := exists_of_mem_right htracks htrack
    exact hone.ticks
  apply Nat.le_antisymm
  · exact ticks_le.2 fun track htrack => Nat.le_of_eq (hall track htrack)
  · cases htracks with
    | nil => exact Nat.zero_le _
    | cons hone hrest =>
      rw [← hone.ticks]
      exact ticks_le.1 (Nat.le_refl _) _ List.mem_cons_self

/-! ## Padding -/

theorem filler_ticks_le (part : Part R) : part.filler.ticks ≤ part.ticks := by
  unfold filler
  cases hlast : part.tracks.getLast? with
  | none => exact Nat.zero_le _
  | some track =>
    simp only [Option.map_some, Option.getD_some, Track.ticks_silenced]
    exact ticks_le.1 (Nat.le_refl _) track (List.mem_of_getLast? hlast)

/-- Padding takes no time. -/
@[simp] theorem ticks_pad (width : Nat) (part : Part R) : (part.pad width).ticks = part.ticks := by
  apply Nat.le_antisymm
  · refine ticks_le.2 fun track htrack => ?_
    rcases List.mem_append.1 htrack with htrack | htrack
    · exact ticks_le.1 (Nat.le_refl _) track htrack
    · rw [List.eq_of_mem_replicate htrack]
      exact part.filler_ticks_le
  · exact ticks_le.2 fun track htrack =>
      ticks_le.1 (Nat.le_refl _) track (List.mem_append_left _ htrack)

theorem length_pad (width : Nat) (part : Part R) :
    (part.pad width).tracks.length = max width part.tracks.length := by
  simp only [pad, List.length_append, List.length_replicate]
  omega

theorem widest_padAll (parts : List (Part R)) : widest (padAll parts) = widest parts := by
  have hlength : ∀ part ∈ parts, part.tracks.length ≤ widest parts := widest_le.1 (Nat.le_refl _)
  apply Nat.le_antisymm
  · refine widest_le.2 fun padded hpadded => ?_
    obtain ⟨part, hpart, rfl⟩ := List.mem_map.1 hpadded
    rw [length_pad]
    exact Nat.max_le.2 ⟨Nat.le_refl _, hlength part hpart⟩
  · refine widest_le.2 fun part hpart => ?_
    refine Nat.le_trans ?_ (widest_le.1 (Nat.le_refl _) _ (List.mem_map_of_mem hpart))
    rw [length_pad]
    exact Nat.le_max_right _ _

theorem notes_filler (part : Part R) : part.filler.notes = [] := by
  unfold filler
  cases part.tracks.getLast? with
  | none => rfl
  | some track => exact Track.readNotes_silenced 0 [] track

/-- The notes of the track at a place; where there is no track there are no notes. -/
def notesAt (part : Part R) (index : Nat) : List Span :=
  (part.tracks[index]?.map Track.notes).getD []

/-- Padding is not heard. -/
theorem notesAt_pad (width : Nat) (part : Part R) (index : Nat) :
    (part.pad width).notesAt index = part.notesAt index := by
  unfold notesAt
  by_cases hindex : index < part.tracks.length
  · simp only [pad, List.getElem?_append_left hindex]
  · rw [List.getElem?_eq_none (Nat.le_of_not_lt hindex)]
    simp only [pad, List.getElem?_append_right (Nat.le_of_not_lt hindex), List.getElem?_replicate]
    split
    · exact part.notes_filler
    · rfl

end Part

end RhythmTiles
