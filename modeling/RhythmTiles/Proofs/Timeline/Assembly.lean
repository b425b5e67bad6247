import RhythmTiles.Proofs.Timeline.Sections
import RhythmTiles.Proofs.Track.Pairing

/-!
# Parts end to end

Each part starts where the parts before it end (`offset`), so a track of the timeline is made of what the
parts play on it, one part after the other (`played`), in the order of their starts. That order is the only
thing that sorting changes: notes that start together stay as they were (`isStableSort_mergeSort`). Main
theorem: `ofParts_lays_out`.
-/

namespace RhythmTiles

/-- `sorted` lists spans by their starts, and those that start together in the order of `spans`. -/
structure Span.IsStableSort (spans sorted : List Span) : Prop where
  perm : sorted.Perm spans
  ordered : sorted.Pairwise fun a b => a.start ≤ b.start
  ties : ∀ tick, (sorted.filter fun a => a.start = tick) = spans.filter fun a => a.start = tick

theorem Span.isStableSort_mergeSort (spans : List Span) :
    Span.IsStableSort spans (spans.mergeSort fun a b => a.start ≤ b.start) := by
  have htrans : ∀ a b c : Span, decide (a.start ≤ b.start) = true →
      decide (b.start ≤ c.start) = true → decide (a.start ≤ c.start) = true := by
    intro a b c hab hbc
    simp only [decide_eq_true_eq] at hab hbc ⊢
    exact hab.trans hbc
  have htotal : ∀ a b : Span, (decide (a.start ≤ b.start) || decide (b.start ≤ a.start)) = true := by
    intro a b
    simpa using Nat.le_total a.start b.start
  have hperm := List.mergeSort_perm spans fun a b => decide (a.start ≤ b.start)
  refine ⟨hperm, ?_, fun tick => ?_⟩
  · exact (List.pairwise_mergeSort htrans htotal spans).imp fun hle => by simpa using hle
  · -- spans that start together are in order already, so the sort keeps them as a sublist
    have htied : (spans.filter fun a => a.start = tick).Pairwise
        fun a b => decide (a.start ≤ b.start) = true := by
      refine List.pairwise_of_forall_mem_list fun a ha b hb => ?_
      have hastart := of_decide_eq_true (List.mem_filter.1 ha).2
      have hbstart := of_decide_eq_true (List.mem_filter.1 hb).2
      simp [hastart, hbstart]
    have hkept := (List.sublist_mergeSort htrans htotal htied List.filter_sublist).filter
      fun a => decide (a.start = tick)
    rw [List.filter_filter] at hkept
    simp only [Bool.and_self] at hkept
    exact (hkept.eq_of_length (hperm.filter _).length_eq.symm).symm

namespace Timeline

variable {R : Type}

/-- The tick at which part `i` starts. -/
def offset (parts : List (Part R)) (i : Nat) : Nat := ((parts.take i).map Part.ticks).sum

/-- What parts play on track `k`, part by part, each from where it starts. -/
def played (parts : List (Part R)) (k : Nat) : List Span :=
  parts.zipIdx.flatMap fun (part, i) => (part.notesAt k).map (Span.shift (offset parts i))

theorem offset_mono (parts : List (Part R)) : Monotone (offset parts) := by
  intro i j hij
  have hsub : ((parts.take i).map Part.ticks).Sublist ((parts.take j).map Part.ticks) :=
    (List.take_prefix_take_left hij).sublist.map _
  exact hsub.sum_le_sum fun _ _ => Nat.zero_le _

theorem placeParts_eq (start : Nat) (parts : List (Part R)) :
    placeParts start parts = parts.zipIdx.map fun (part, i) => (start + offset parts i, part) := by
  induction parts generalizing start with
  | nil => rfl
  | cons part parts ih =>
    rw [placeParts, ih, List.zipIdx_cons', List.map_cons, List.map_map]
    simp [offset, Function.comp_def, Nat.add_assoc]

theorem spansOf_eq (parts : List (Part R)) (k : Nat) :
    spansOf k (placeParts 0 parts) = (played parts k).mergeSort fun a b => a.start ≤ b.start := by
  have hflat : (placeParts 0 parts).flatMap (fun placed =>
      (placed.2.notesAt k).map (Span.shift placed.1)) = played parts k := by
    rw [placeParts_eq, List.flatMap_map]
    simp only [Nat.zero_add]
    rfl
  rw [← hflat]
  rfl

/-- A part plays its notes while it lasts. -/
theorem bounds_of_mem_notesAt {part : Part R} {k : Nat} {span : Span} (h : span ∈ part.notesAt k) :
    span.start ≤ span.stop ∧ span.stop ≤ part.ticks := by
  unfold Part.notesAt at h
  cases htrack : part.tracks[k]? with
  | none => simp [htrack] at h
  | some track =>
    rw [htrack, Option.map_some, Option.getD_some] at h
    obtain ⟨hle, hstop⟩ := Track.readNotes_bounds (by simp) h
    rw [Nat.zero_add] at hstop
    have hlongest := Part.ticks_le.1 le_rfl track (List.mem_of_getElem? htrack)
    exact ⟨hle, hstop.trans hlongest⟩

theorem exists_of_mem_played {parts : List (Part R)} {k : Nat} {span : Span}
    (h : span ∈ played parts k) :
    ∃ (i : Nat) (part : Part R), parts[i]? = some part ∧
      span ∈ (part.notesAt k).map (Span.shift (offset parts i)) := by
  obtain ⟨⟨part, i⟩, hpart, hspan⟩ := List.mem_flatMap.1 h
  exact ⟨i, part, List.mem_zipIdx_iff_getElem?.1 hpart, hspan⟩

/-- What a part plays lies between its start and its end. -/
theorem bounds_of_mem_shift {part : Part R} {k start : Nat} {span : Span}
    (h : span ∈ (part.notesAt k).map (Span.shift start)) :
    start ≤ span.start ∧ span.start ≤ span.stop ∧ span.stop ≤ start + part.ticks := by
  obtain ⟨own, hown, rfl⟩ := List.mem_map.1 h
  obtain ⟨hle, hstop⟩ := bounds_of_mem_notesAt hown
  simp only [Span.shift]
  omega

variable [Quantity R]

theorem map_span_timeSpan (tempos : List (TempoChange R)) (parts : List (Part R)) (k : Nat) :
    ((spansOf k (placeParts 0 parts)).map (timeSpan tempos)).map Note.span =
      (played parts k).mergeSort fun a b => a.start ≤ b.start := by
  have hspan : ∀ span ∈ spansOf k (placeParts 0 parts),
      (Note.span ∘ timeSpan tempos) span = span := by
    intro span hspan
    rw [spansOf_eq, List.mem_mergeSort] at hspan
    obtain ⟨i, part, -, hmem⟩ := exists_of_mem_played hspan
    exact span_timeSpan tempos (bounds_of_mem_shift hmem).2.1
  rw [List.map_map, List.map_congr_left hspan, List.map_id', spansOf_eq]

/-- **A timeline lays parts end to end.** Each part changes the tempo where it starts. A track is all that
the parts play on it, one note from each start to its own end, sorted by starts with ties in the order of
parts and then of ends; and no part is heard before its start or behind its end. -/
theorem ofParts_lays_out (parts : List (Part R))
    (hclosed : ∀ part ∈ parts, ∀ track ∈ part.tracks, track.Closed) :
    (ofParts parts).tempos.map (fun change => (change.ticks, change.bpm)) =
      parts.zipIdx.map (fun (part, i) => (offset parts i, part.bpm / Quantity.ofNat 30)) ∧
    offset parts 0 = 0 ∧ Monotone (offset parts) ∧
    (∀ k, k < (ofParts parts).tracks.length ↔ ∃ part ∈ parts, k < part.tracks.length) ∧
    (∀ k track, (ofParts parts).tracks[k]? = some track →
      track.channel = k ∧ Span.IsStableSort (played parts k) (track.notes.map Note.span)) ∧
    (∀ part ∈ parts, ∀ track ∈ part.tracks, track.IsPaired track.notes) ∧
    ∀ i part, parts[i]? = some part → ∀ k (note : Note R),
      note.span ∈ (part.notesAt k).map (Span.shift (offset parts i)) →
        offset parts i ≤ note.startTicks ∧
          note.startTicks + note.durationTicks ≤ offset parts i + part.ticks := by
  refine ⟨?_, rfl, offset_mono parts, fun k => ?_, fun k track hk => ?_, ?_, ?_⟩
  · have htempos := map_temposOf parts
    rw [placeParts_eq, List.map_map] at htempos
    simp only [Nat.zero_add, Function.comp_def] at htempos
    rw [← htempos, ofParts, placeParts_eq]
    simp only [Nat.zero_add]
  · have hwidest : Part.widest parts ≤ k ↔ ∀ part ∈ parts, part.tracks.length ≤ k := Part.widest_le
    have hlength : (ofParts parts).tracks.length = Part.widest parts := by simp [ofParts]
    rw [hlength, ← not_le, hwidest]
    simp
  · obtain ⟨index, hindex, rfl⟩ := Option.map_eq_some_iff.1 (List.getElem?_map.symm.trans hk)
    obtain ⟨hlt, rfl⟩ := List.getElem?_eq_some_iff.1 hindex
    rw [List.getElem_range]
    refine ⟨rfl, ?_⟩
    rw [map_span_timeSpan]
    exact Span.isStableSort_mergeSort _
  · intro part hpart track htrack
    exact (hclosed part hpart track htrack).isPaired
  · intro i part _ k note hnote
    obtain ⟨hstart, -, hstop⟩ := bounds_of_mem_shift hnote
    exact ⟨hstart, hstop⟩

/-- Two notes of one pitch overlap, a part without length has a note at the start of the next one, and only
the last part has a second track. -/
theorem ofParts_lays_out_overlap :
    let parts : List (Part Rat) :=
      [⟨3600, [[.on 60, .delay 100, .on 60, .delay 50, .off 60, .delay 50, .off 60]]⟩,
        ⟨1800, [[.on 62, .off 62]]⟩,
        ⟨900, [[.on 60, .on 64, .delay 10, .off 60, .off 64], [.on 67, .delay 20, .off 67]]⟩]
    (∀ part ∈ parts, ∀ track ∈ part.tracks, track.Closed) ∧
      (ofParts parts).tempos.map (fun change => (change.ticks, change.bpm)) =
        [(0, 120), (200, 60), (200, 30)] ∧
      1 < (ofParts parts).tracks.length ∧
      ∀ track, (ofParts parts).tracks[0]? = some track → Span.IsStableSort
        [⟨60, 100, 150⟩, ⟨60, 0, 200⟩, ⟨62, 200, 200⟩, ⟨60, 200, 210⟩, ⟨64, 200, 210⟩]
        (track.notes.map Note.span) := by
  intro parts
  have hclosed : ∀ part ∈ parts, ∀ track ∈ part.tracks, track.Closed := by
    unfold Track.Closed
    decide
  have hplaces : parts.zipIdx.map (fun (part, i) => (offset parts i, part.bpm / Quantity.ofNat 30)) =
      [(0, 120), (200, 60), (200, 30)] := by decide +kernel
  have hplayed : played parts 0 =
      [⟨60, 100, 150⟩, ⟨60, 0, 200⟩, ⟨62, 200, 200⟩, ⟨60, 200, 210⟩, ⟨64, 200, 210⟩] := by decide
  obtain ⟨htempos, -, -, hwidth, htracks, -, -⟩ := ofParts_lays_out parts hclosed
  have hsecond : ∃ part ∈ parts, 1 < part.tracks.length :=
    ⟨parts[2], List.getElem_mem (by decide), by decide⟩
  refine ⟨hclosed, htempos.trans hplaces, (hwidth 1).2 hsecond, ?_⟩
  intro track htrack
  rw [← hplayed]
  exact (htracks 0 track htrack).2

end Timeline

end RhythmTiles
