import RhythmTiles.Compiled.Basic
import RhythmTiles.Proofs.Grid.Ids
import RhythmTiles.Proofs.Level.Melody

/-!
# Where the notes of melodies are marked

In a level of melodies every note has a row of its own. The start of the row and the start of the note
are one time, but computed in two ways; so the note is marked on its own row, or on the row before where
the computed start of its row is later (`melody_marks`). The latter happens (`melody_not_on_own_row`).
-/

namespace RhythmTiles

open Binary64

/-! ## The window of a note -/

section

variable {ss : List Stretch} (h : ∀ s ∈ ss, s.Accurate)
  (hlimit : (Stretch.rows ss).length * (Stretch.seconds ss).sum ≤ 10 ^ 12)
  {tempos : List (TempoChange Float)}
  (htempos : tempos.map (fun change => (change.ticks, change.bpm)) = Stretch.changes 0 ss)
  {windows : Array (RowWindow Float)} (hsize : windows.size = (Stretch.rows ss).length)
  (hwindows : ∀ k w, windows[k]? = some w →
    w.start = Stretch.edge ss k ∧ w.stop = Stretch.edge ss (k + 1))
include h hlimit htempos hsize hwindows

/-- The windows that are over when a note starts are those before its row, or all of these but the
last. -/
theorem stop_le_noteTime_iff {i k : Nat} {w : RowWindow Float} (hk : k < (Stretch.rows ss).length)
    (hw : windows[i]? = some w) :
    w.stop ≤ Stretch.noteTime ss tempos k ↔
      i < if Stretch.edge ss k ≤ Stretch.noteTime ss tempos k then k else k - 1 := by
  obtain ⟨hi, -⟩ := Array.getElem?_eq_some_iff.1 hw
  rw [(hwindows i w hw).2]
  rcases Nat.lt_trichotomy (i + 1) k with hlt | heq | hgt
  · have hover := Stretch.edge_le_noteTime h hlimit htempos hlt hk
    split <;> simp only [hover, true_iff] <;> omega
  · rw [heq]
    split
    · rename_i hover
      simp only [hover, true_iff]
      omega
    · rename_i hover
      simp only [hover, false_iff]
      omega
  · have hover := Stretch.not_edge_le_noteTime h hlimit htempos hgt (by omega)
    split <;> simp only [hover, false_iff] <;> omega

/-- **A note is in the window of its row, or in that before** where the row starts later. -/
theorem at?_noteTime {k : Nat} (hk : k < (Stretch.rows ss).length) :
    ∃ i w, windows[i]? = some w ∧
      RowWindow.at? windows (Stretch.noteTime ss tempos k) = some w ∧
      i + 1 = if Stretch.edge ss k ≤ Stretch.noteTime ss tempos k then k + 1 else k := by
  obtain ⟨i, hi⟩ : ∃ i, i = if Stretch.edge ss k ≤ Stretch.noteTime ss tempos k then k else k - 1 :=
    ⟨_, rfl⟩
  -- the first row does not start later than its note
  have hpos : ¬Stretch.edge ss k ≤ Stretch.noteTime ss tempos k → 0 < k := by
    intro hlate
    refine Nat.pos_of_ne_zero ?_
    rintro rfl
    exact hlate (Stretch.edge_zero_le_noteTime htempos)
  have hlt : i < windows.size := by
    rw [hi, hsize]
    split <;> omega
  have hget : windows[i]? = some windows[i] := Array.getElem?_eq_getElem hlt
  refine ⟨i, windows[i], hget, RowWindow.at?_eq ?_ hget ?_, ?_⟩
  · intro j w hw
    rw [hi]
    exact stop_le_noteTime_iff h hlimit htempos hsize hwindows hk hw
  · rw [(hwindows i _ hget).1, hi]
    split
    · assumption
    · rename_i hlate
      have := hpos hlate
      exact Stretch.edge_le_noteTime h hlimit htempos (by omega) hk
  · rw [hi]
    split
    · rfl
    · rename_i hlate
      exact Nat.sub_add_cancel (hpos hlate)

end

/-! ## Levels -/

theorem Compiled.ofLevel_of_timeline (options : Options) {level : Level} {timeline : Timeline Float}
    (h : level.timeline = .ok timeline) :
    ofLevel options level =
      let layout := Layout.ofLevel level
      let placed := PlacedRow.stack options.geometry layout.rows
      ⟨layout.rows, layout.sections, placed,
        Indicator.place options.geometry placed layout.sections timeline, timeline, none,
        level.audition⟩ := by
  unfold ofLevel
  rw [h]

namespace Level

theorem Melody.isKey {level : Level} {sections : List (Music × List NoteUnit)}
    (h : level.Melody sections) {u : NoteUnit} (hu : u ∈ unitsOf sections) : u.pitch.isKey = true := by
  obtain ⟨s, hs, hu⟩ := List.mem_flatMap.1 hu
  have hplain := (h.melodies s hs).plain u hu
  exact (Score.Scan.isKey_of_ofName hplain.ofName).resolve_left hplain.named

/-- A timeline of melodies has a note for each unit. -/
theorem length_notes {sections : List (Music × List NoteUnit)} {timeline : Timeline Float}
    {tempos : List (TempoChange Float)}
    (hnotes : timeline.notes = (Span.inTurn 0 (notesOf sections)).map fun span =>
      (0, Timeline.timeSpan tempos span)) : timeline.notes.length = (unitsOf sections).length := by
  rw [hnotes, List.length_map, Span.length_inTurn]
  simp [notesOf, unitsOf, melodyNotes, List.length_flatMap]

namespace Melody

variable {level : Level} {sections : List (Music × List NoteUnit)} (h : level.Melody sections)
include h

/-- The notes of the timeline are those of the units, each at the time of its row. -/
theorem exists_note {timeline : Timeline Float} {tempos : List (TempoChange Float)}
    (hnotes : timeline.notes = (Span.inTurn 0 (notesOf sections)).map fun span =>
      (0, Timeline.timeSpan tempos span)) {k : Nat} {u : NoteUnit}
    (hk : (unitsOf sections)[k]? = some u) :
    ∃ note, timeline.notes[k]? = some (0, note) ∧ note.pitch = u.pitch ∧
      note.time = Stretch.noteTime (level.stretches sections) tempos k := by
  obtain ⟨stop, hspan⟩ := h.getElem?_inTurn hk
  rw [hnotes, List.getElem?_map, hspan]
  exact ⟨_, rfl, rfl, rfl⟩

variable (hlimit : (Stretch.rows (level.stretches sections)).length *
    (Stretch.seconds (level.stretches sections)).sum ≤ 10 ^ 12)
  (haccurate : ∀ s ∈ level.stretches sections, s.Accurate) {tempos : List (TempoChange Float)}
  (htempos : tempos.map (fun change => (change.ticks, change.bpm)) =
    Stretch.changes 0 (level.stretches sections))
include hlimit haccurate htempos

/-- The window of a note is that of its row, or that before where its row starts later. -/
theorem window?_note (g : Geometry Float) {k : Nat} {u : NoteUnit} {note : Note Float}
    (hk : (unitsOf sections)[k]? = some u) (hpitch : note.pitch = u.pitch)
    (htime : note.time = Stretch.noteTime (level.stretches sections) tempos k) :
    ∃ w v, (level.windows g)[k]? = some w ∧
      Indicator.window? (level.windows g).toArray note = some v ∧ w.row.index = k + 1 ∧
      v.row.index = (if w.start ≤ note.time then k + 1 else k) ∧ 0 < v.row.index := by
  obtain ⟨hcount, hget⟩ := h.windows haccurate g
  obtain ⟨hk', hu⟩ := List.getElem?_eq_some_iff.1 hk
  rw [← length_rows level] at hk'
  have hwindows : ∀ i w, (level.windows g).toArray[i]? = some w →
      w.start = Stretch.edge (level.stretches sections) i ∧
        w.stop = Stretch.edge (level.stretches sections) (i + 1) ∧ w.row.index = i + 1 ∧
        w.row.isStart = false ∧ w.row.tileCount ≠ 0 := by
    intro i w hw
    obtain ⟨hi, -⟩ := Array.getElem?_eq_some_iff.1 hw
    obtain ⟨bottom, height, tiles, hrow⟩ := hget i (hcount ▸ hi)
    rw [List.getElem?_toArray] at hw
    obtain rfl := Option.some.inj (hrow.symm.trans hw)
    exact ⟨rfl, rfl, rfl, rfl, one_ne_zero⟩
  obtain ⟨i, v, hv, hat, hi⟩ := at?_noteTime haccurate hlimit htempos hcount
    (fun i w hw => ⟨(hwindows i w hw).1, (hwindows i w hw).2.1⟩) hk'
  obtain ⟨bottom, height, tiles, hw⟩ := hget k hk'
  obtain ⟨-, -, hindex, hstart, htiles⟩ := hwindows i v hv
  refine ⟨_, v, hw, ?_, rfl, ?_, ?_⟩
  · rw [← htime] at hat
    refine Indicator.window?_eq ?_ hat hstart htiles
    rw [hpitch, ← hu]
    exact h.isKey (List.getElem_mem _)
  · rw [hindex, hi, htime]
  · rw [hindex]
    exact Nat.succ_pos i

variable {timeline : Timeline Float}
  (hnotes : timeline.notes = (Span.inTurn 0 (notesOf sections)).map fun span =>
    (0, Timeline.timeSpan tempos span))
include hnotes

theorem exists_window? (g : Geometry Float) {note : Nat × Note Float} (hnote : note ∈ timeline.notes) :
    ∃ v, Indicator.window? (level.windows g).toArray note.2 = some v := by
  obtain ⟨k, hk, hget⟩ := List.mem_iff_getElem.1 hnote
  rw [length_notes hnotes] at hk
  have hu := List.getElem?_eq_getElem hk
  obtain ⟨other, hother, hpitch, htime⟩ := h.exists_note hnotes hu
  obtain ⟨w, v, -, hv, -⟩ := h.window?_note hlimit haccurate htempos g hu hpitch htime
  have hsame : timeline.notes[k] = (0, other) := (List.getElem?_eq_some_iff.1 hother).2
  refine ⟨v, ?_⟩
  rw [← hget, hsame]
  exact hv

/-- The ids of the notes differ, for their milliseconds do. -/
theorem nodup_ids : (timeline.notes.map fun note => note.2.id note.1).Nodup := by
  have hlength := length_notes hnotes
  have hid : ∀ k (hk : k < timeline.notes.length),
      timeline.notes[k].2.id timeline.notes[k].1 =
        noteId (toMillis (Stretch.noteTime (level.stretches sections) tempos k)) 0
          timeline.notes[k].2.pitch := by
    intro k hk
    obtain ⟨note, hget, -, htime⟩ := h.exists_note hnotes (List.getElem?_eq_getElem (hlength ▸ hk))
    have hsame : timeline.notes[k] = (0, note) := (List.getElem?_eq_some_iff.1 hget).2
    rw [hsame, Note.id, htime]
  rw [List.Nodup, List.pairwise_iff_getElem]
  intro i j hi hj hij hsame
  rw [List.length_map] at hi hj
  rw [List.getElem_map, List.getElem_map, hid i hi, hid j hj] at hsame
  refine Stretch.toMillis_ne haccurate hlimit htempos hij ?_ (noteId_eq_iff.1 hsame).1
  rw [length_rows, ← hlength]
  exact hj

theorem forall₂_marks (g : Geometry Float) :
    List.Forall₂ (fun note i => ∃ v, Indicator.window? (level.windows g).toArray note.2 = some v ∧
        i = Indicator.mark g v (note.2.id note.1) note.2.time)
      timeline.notes (Indicator.markAll g (level.windows g).toArray [] timeline.notes) :=
  Indicator.forall₂_markAll g (fun _ hnote => h.exists_window? hlimit haccurate htempos hnotes g hnote)
    (h.nodup_ids hlimit haccurate htempos hnotes) fun _ _ => List.not_mem_nil

end Melody

/-- **In a level of melodies each unit has a row, a note and a mark**, in order, if the level is not
far too long. The note is marked on its row, or on the row before where its row starts later. -/
theorem melody_marks (options : Options) {level : Level} {sections : List (Music × List NoteUnit)}
    (h : level.Melody sections)
    (hlimit : (unitsOf sections).length * level.exactSeconds sections ≤ 10 ^ 12) :
    let c := Compiled.ofLevel options level
    let windows := RowWindow.ofRows c.placedRows c.sections
    c.timelineFault = none ∧ windows.length = (unitsOf sections).length ∧
      c.indicators.length = (unitsOf sections).length ∧
      ∀ k u, (unitsOf sections)[k]? = some u →
        ∃ (w : RowWindow Float) (note : Note Float) (i : Indicator Float), windows[k]? = some w ∧
          c.timeline.notes[k]? = some (0, note) ∧ c.indicators[k]? = some i ∧
          w.row.index = k + 1 ∧ note.pitch = u.pitch ∧ i.id = note.id 0 ∧ i.time = note.time ∧
          i.rowIndex = (if w.start ≤ note.time then k + 1 else k) ∧ 0 < i.rowIndex := by
  obtain ⟨timeline, tempos, htimeline, htempos, hnotes⟩ := h.timeline
  have haccurate := h.accurate hlimit
  have hrows : (Stretch.rows (level.stretches sections)).length *
      (Stretch.seconds (level.stretches sections)).sum ≤ 10 ^ 12 := by
    rw [length_rows, sum_seconds]
    exact hlimit
  have hmarks := h.forall₂_marks hrows haccurate htempos hnotes options.geometry
  have hcount := length_notes hnotes
  rw [Compiled.ofLevel_of_timeline options htimeline]
  refine ⟨rfl, ?_, ?_, ?_⟩
  · exact (h.windows haccurate options.geometry).1.trans (length_rows level sections)
  · exact hmarks.length_eq.symm.trans hcount
  · intro k u hu
    obtain ⟨note, hnote, hpitch, htime⟩ := h.exists_note hnotes hu
    obtain ⟨w, v, hw, hv, hindex, hrow, hpos⟩ :=
      h.window?_note hrows haccurate htempos options.geometry hu hpitch htime
    obtain ⟨hk, hget⟩ := List.getElem?_eq_some_iff.1 hnote
    have hk' := hmarks.length_eq ▸ hk
    -- there is a mark for every note, so mark `k` is that of note `k`
    obtain ⟨v', hv', hmark⟩ := hmarks.get hk hk'
    simp only [List.get_eq_getElem, hget] at hv' hmark
    obtain rfl := Option.some.inj (hv.symm.trans hv')
    have hi := (List.getElem?_eq_getElem hk').trans (congrArg some hmark)
    exact ⟨w, note, Indicator.mark options.geometry v (note.id 0) note.time, hw, hnote, hi, hindex,
      hpitch, rfl, rfl, hrow, hpos⟩

/-! ### One note, four times -/

/-- One note of a tile, four times. -/
def fourNotes : List NoteUnit := List.replicate 4 ⟨['c'], ['K']⟩

def fourNotesMusic : Music := ⟨0, none, 1.0, ["(c)[K],(c)[K],(c)[K],(c)[K]"]⟩

def fourNotesAt (bpm : Float) : Level := ⟨bpm, [fourNotesMusic], none⟩

theorem melody_fourNotesAt {bpm : Float} (hfinite : bpm.isFinite = true) (hpos : 0 < bpm)
    (hfast : bpm / 1.0 ≤ 6000) : (fourNotesAt bpm).Melody [(fourNotesMusic, fourNotes)] := by
  have hentry : (1.0, 30) ∈ BaseBeats.table := by simp [BaseBeats.table]
  have hticks : BaseBeats.ticksPerUnit? fourNotesMusic.baseBeats = some 30 :=
    BaseBeats.ticksPerUnit?_of_mem_table hentry
  have hunit : fourNotesMusic.unitTicks = 30 := by rw [Music.unitTicks, hticks, Option.getD_some]
  refine ⟨rfl, fun s hs => ?_⟩
  obtain rfl := List.mem_singleton.1 hs
  refine ⟨rfl, List.cons_ne_nil _ _, hunit ▸ hentry, ?_, ?_, hfinite, hpos, hfast⟩
  · intro u hu
    obtain rfl := List.eq_of_mem_replicate hu
    rw [hunit]
    refine ⟨by decide +kernel, fun c hc => ?_, by decide, by decide⟩
    obtain rfl := List.mem_singleton.1 hc
    rfl
  · rw [hunit]
    show (fourNotes.map (NoteUnit.ticks 30)).sum ≤ maxTicks
    decide

/-- The four notes are timed by the one tempo there is. -/
theorem indicators_fourNotesAt (options : Options) {bpm : Float}
    (h : (fourNotesAt bpm).Melody [(fourNotesMusic, fourNotes)]) :
    (Compiled.ofLevel options (fourNotesAt bpm)).indicators =
      Indicator.markAll options.geometry ((fourNotesAt bpm).windows options.geometry).toArray []
        ((Span.inTurn 0 (List.replicate 4 (60, 960))).map fun span =>
          (0, Timeline.timeSpan [⟨0, Music.scoreTempo bpm 1.0 / Float.ofNat 30, 0⟩] span)) := by
  obtain ⟨timeline, tempos, htimeline, htempos, hnotes⟩ := h.timeline
  obtain ⟨⟨ticks, tempo, time⟩, rfl, hchange⟩ := List.map_eq_singleton_iff.1 htempos
  obtain ⟨rfl, rfl⟩ := Prod.mk.inj hchange
  have hfour : notesOf [(fourNotesMusic, fourNotes)] = List.replicate 4 (60, 960) := by
    decide +kernel
  have hmarks : (Compiled.ofLevel options (fourNotesAt bpm)).indicators =
      Indicator.markAll options.geometry ((fourNotesAt bpm).windows options.geometry).toArray []
        timeline.notes := by
    rw [Compiled.ofLevel_of_timeline options htimeline]
    rfl
  rw [hmarks, hnotes, hfour]
  rfl

/-- At a common tempo each of the four notes has a mark, the first of them on the first row. -/
theorem melody_marks_fourNotes :
    let sections := [(fourNotesMusic, fourNotes)]
    let level := fourNotesAt 150
    let indicators := (Compiled.ofLevel Options.default level).indicators
    level.Melody sections ∧ (unitsOf sections).length * level.exactSeconds sections ≤ 10 ^ 12 ∧
      indicators.length = 4 ∧ ∃ i, indicators[0]? = some i ∧ i.rowIndex = 1 := by
  intro sections level indicators
  have h : level.Melody sections :=
    melody_fourNotesAt (by decide +kernel) (by decide +kernel) (by decide +kernel)
  have hlimit : (unitsOf sections).length * level.exactSeconds sections ≤ 10 ^ 12 := by
    decide +kernel
  obtain ⟨-, -, hlength, hmarks⟩ := melody_marks Options.default h hlimit
  obtain ⟨w, note, i, -, -, hi, -, -, -, -, hrow, hpos⟩ := hmarks 0 ⟨['c'], ['K']⟩ rfl
  refine ⟨h, hlimit, hlength, i, hi, ?_⟩
  split at hrow <;> omega

/-- **A note can be marked on the row before its own**, and in a level that is far too long a note
can be without a mark. -/
theorem melody_not_on_own_row :
    ((fourNotesAt 150).Melody [(fourNotesMusic, fourNotes)] ∧
      (Compiled.ofLevel Options.default (fourNotesAt 150)).indicators.map Indicator.rowIndex =
        [1, 2, 3, 3]) ∧
    ((fourNotesAt 1e-15).Melody [(fourNotesMusic, fourNotes)] ∧
      (Compiled.ofLevel Options.default (fourNotesAt 1e-15)).indicators.length < 4) := by
  constructor
  · have h : (fourNotesAt 150).Melody [(fourNotesMusic, fourNotes)] :=
      melody_fourNotesAt (by decide +kernel) (by decide +kernel) (by decide +kernel)
    refine ⟨h, ?_⟩
    rw [indicators_fourNotesAt Options.default h]
    decide +kernel
  · have h : (fourNotesAt 1e-15).Melody [(fourNotesMusic, fourNotes)] :=
      melody_fourNotesAt (by decide +kernel) (by decide +kernel) (by decide +kernel)
    refine ⟨h, ?_⟩
    rw [indicators_fourNotesAt Options.default h]
    refine Indicator.length_markAll_lt _ _ _ fun hids => ?_
    -- the milliseconds of both the second and the third note are beyond the greatest word
    have hsame :
        toMillis (Timeline.timeSpan [⟨0, Music.scoreTempo 1e-15 1.0 / Float.ofNat 30, 0⟩]
          ⟨60, 960, 1920⟩).time =
        toMillis (Timeline.timeSpan [⟨0, Music.scoreTempo 1e-15 1.0 / Float.ofNat 30, 0⟩]
          ⟨60, 1920, 2880⟩).time := by
      decide +kernel
    exact List.pairwise_iff_getElem.1 hids 1 2 (by decide) (by decide) Nat.one_lt_two
      (congrArg (fun millis => noteId millis 0 60) hsame)

end Level

end RhythmTiles
