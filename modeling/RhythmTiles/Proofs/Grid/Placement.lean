import RhythmTiles.Proofs.Grid.Chain

/-!
# Where notes are marked

Rows pass one after the other, each at the speed of the section that holds it (`Layout.rowStart`), and a note
falls on the row that passes when it starts (`Layout.FallsOn`). Its mark needs a key of a piano, a row with
tiles, and an id that no earlier mark has (`Indicator.exists_firsts`). Main theorem:
`Indicator.place_marks_firsts`.
-/

namespace RhythmTiles

namespace Layout

/-- Every row belongs to exactly one section. -/
def IsPartitioned (layout : Layout Rat) : Prop :=
  ∀ k < layout.rows.length, ∃! s, s ∈ layout.sections ∧ s.containsRow k = true

def speedAt (layout : Layout Rat) (k : Nat) : Rat :=
  ((layout.sections.find? fun s => s.containsRow k).map Section.tilesPerSecond).getD 0

/-- How long each row passes, at the speed of the section that holds it. -/
def passingTimes (layout : Layout Rat) : List Rat :=
  layout.rows.zipIdx.map fun (row, k) => (row.height : Rat) / layout.speedAt k

/-- The time at which row `k` starts to pass: the rows before it have passed. -/
def rowStart (layout : Layout Rat) (k : Nat) : Rat := (layout.passingTimes.take k).sum

/-- The note is a key of a piano and starts while row `k`, which has tiles, passes. -/
structure FallsOn (layout : Layout Rat) (note : Note Rat) (k : Nat) : Prop where
  key : 21 ≤ note.pitch ∧ note.pitch ≤ 108
  tiles : ∃ row, layout.rows[k]? = some row ∧ 0 < row.kind.tileCount
  begun : layout.rowStart k ≤ note.time
  passing : note.time < layout.rowStart (k + 1)

/-- Note `n` falls on a row, and no note before it that falls on a row has its id. -/
def IsFirst (layout : Layout Rat) (notes : List (Nat × Note Rat)) (n : Nat) : Prop :=
  ∃ track note, notes[n]? = some (track, note) ∧ (∃ k, layout.FallsOn note k) ∧
    ∀ m < n, ∀ track' note', notes[m]? = some (track', note') → (∃ k, layout.FallsOn note' k) →
      note'.id track' ≠ note.id track

variable {layout : Layout Rat}

/-- A row passes at the speed of any section that holds it: there is but one. -/
theorem IsPartitioned.speedAt_eq (h : layout.IsPartitioned) {k : Nat} (hk : k < layout.rows.length)
    {s : Section Rat} (hs : s ∈ layout.sections) (hrow : s.containsRow k = true) :
    layout.sections.find? (fun s => s.containsRow k) = some s ∧ layout.speedAt k = s.tilesPerSecond := by
  obtain ⟨only, -, honly⟩ := h k hk
  have hfind : layout.sections.find? (fun s => s.containsRow k) = some s := by
    cases hfound : layout.sections.find? fun s => s.containsRow k with
    | none => exact absurd hrow (by simpa using List.find?_eq_none.1 hfound s hs)
    | some t =>
      have hholds : t.containsRow k = true := by simpa using List.find?_some hfound
      have ht : t = only := honly t ⟨List.mem_of_find?_eq_some hfound, hholds⟩
      rw [ht, honly s ⟨hs, hrow⟩]
  exact ⟨hfind, by rw [speedAt, hfind]; rfl⟩

/-! ## Windows of rows -/

theorem durations_stackFrom (layout : Layout Rat) (g : Geometry Rat) (index : Nat) (bottom : Rat) :
    RowWindow.durations (PlacedRow.stackFrom g index bottom layout.rows)
      ((List.range layout.rows.length).map layout.speedAt) = layout.passingTimes := by
  have htiles := PlacedRow.map_tiles_stackFrom g index bottom layout.rows
  refine List.ext_getElem ?_ ?_
  · simp [RowWindow.durations, passingTimes, PlacedRow.length_stackFrom]
  · intro k hk hk'
    have hrow : k < layout.rows.length := by simpa [passingTimes] using hk'
    have hplaced : k < (PlacedRow.stackFrom g index bottom layout.rows).length := by
      rwa [PlacedRow.length_stackFrom]
    have hheight : (PlacedRow.stackFrom g index bottom layout.rows)[k].tiles =
        layout.rows[k].height := by
      have hget := congrArg (fun tiles => tiles[k]?) htiles
      simpa [hplaced, hrow] using hget
    simp [RowWindow.durations, passingTimes, hheight, Quantity.ofNat]

theorem edge_passingTimes (layout : Layout Rat) (k : Nat) :
    RowWindow.edge (Quantity.ofNat 0) layout.passingTimes k = layout.rowStart k := by
  rw [RowWindow.edge, rowStart, List.sum_eq_foldl]
  rfl

/-- **Every row has its window**, from its own start to that of the next row. -/
theorem IsPartitioned.windows (h : layout.IsPartitioned)
    (hspeeds : ∀ s ∈ layout.sections, 0 < s.tilesPerSecond) (g : Geometry Rat) :
    let windows := RowWindow.ofRows (PlacedRow.stack g layout.rows) layout.sections
    windows.length = layout.rows.length ∧
      ∀ k row, layout.rows[k]? = some row → ∃ placed, windows[k]? =
        some ⟨placed, layout.rowStart k, layout.rowStart (k + 1)⟩ ∧ placed.index = k + 1 ∧
          placed.isStart = false ∧ placed.tileCount = row.kind.tileCount := by
  intro windows
  -- the section that is found for a row has its speed, as only one section holds the row
  have hholds : ∀ k < layout.rows.length, ∃ s ∈ layout.sections,
      layout.sections.find? (fun s => s.containsRow k) = some s ∧
        s.tilesPerSecond = layout.speedAt k := by
    intro k hk
    obtain ⟨s, ⟨hs, hrow⟩, -⟩ := h k hk
    obtain ⟨hfind, hspeed⟩ := h.speedAt_eq hk hs hrow
    exact ⟨s, hs, hfind, hspeed.symm⟩
  have husable : ∀ speed ∈ (List.range layout.rows.length).map layout.speedAt,
      Quantity.isFinite speed = true ∧ Quantity.ofNat 0 < speed := by
    intro speed hspeed
    obtain ⟨k, hk, rfl⟩ := List.mem_map.1 hspeed
    obtain ⟨s, hs, -, htps⟩ := hholds k (List.mem_range.1 hk)
    rw [← htps]
    exact ⟨rfl, hspeeds s hs⟩
  have hsections : ∀ k speed, ((List.range layout.rows.length).map layout.speedAt)[k]? = some speed →
      ∃ s, layout.sections.find? (fun s => s.containsRow (0 + k)) = some s ∧
        s.tilesPerSecond = speed := by
    intro k speed hspeed
    obtain ⟨j, hj, rfl⟩ := Option.map_eq_some_iff.1 (List.getElem?_map.symm.trans hspeed)
    obtain ⟨hlt, rfl⟩ := List.getElem?_eq_some_iff.1 hj
    rw [List.length_range] at hlt
    rw [List.getElem_range, Nat.zero_add]
    obtain ⟨s, -, hfind, htps⟩ := hholds k hlt
    exact ⟨s, hfind, htps⟩
  have hspeedOf : ((List.range layout.rows.length).map layout.speedAt).length =
      (PlacedRow.stackFrom g 1 (g.viewportHeight - g.baseTileHeight) layout.rows).length := by
    rw [List.length_map, List.length_range, PlacedRow.length_stackFrom]
  obtain ⟨hlength, hwindows⟩ := RowWindow.follow_eq hspeedOf
    (fun row hrow => PlacedRow.isStart_of_mem_stackFrom hrow) husable hsections (Quantity.ofNat 0)
  rw [PlacedRow.length_stackFrom] at hlength
  refine ⟨hlength, fun k row hrow => ?_⟩
  obtain ⟨bottom, height, hplaced⟩ := PlacedRow.getElem?_stackFrom g hrow 1
    (g.viewportHeight - g.baseTileHeight)
  have hwindow := hwindows k _ hplaced
  rw [durations_stackFrom, edge_passingTimes, edge_passingTimes] at hwindow
  exact ⟨_, hwindow, Nat.add_comm 1 k, rfl, rfl⟩

end Layout

namespace Indicator

/-! ## Notes with windows -/

section

variable {R : Type} [Quantity R]

theorem window?_eq_some {windows : Array (RowWindow R)} {note : Note R} {w : RowWindow R} :
    window? windows note = some w ↔ note.pitch.isKey = true ∧
      RowWindow.at? windows note.time = some w ∧ w.row.isStart = false ∧ w.row.tileCount ≠ 0 := by
  unfold window?
  by_cases hkey : note.pitch.isKey = true
  · simp [hkey, Option.filter_eq_some_iff]
  · simp [hkey]

/-- Note `n` has a window, its id is not taken, and no note before it that has a window has its id. -/
def IsFresh (windows : Array (RowWindow R)) (seen : List String) (notes : List (Nat × Note R))
    (n : Nat) : Prop :=
  ∃ e, notes[n]? = some e ∧ window? windows e.2 ≠ none ∧ e.2.id e.1 ∉ seen ∧
    ∀ m < n, ∀ e', notes[m]? = some e' → window? windows e'.2 ≠ none → e'.2.id e'.1 ≠ e.2.id e.1

variable {windows : Array (RowWindow R)} {seen : List String} {first : Nat × Note R}
  {notes : List (Nat × Note R)}

theorem isFresh_zero : IsFresh windows seen (first :: notes) 0 ↔
    window? windows first.2 ≠ none ∧ first.2.id first.1 ∉ seen := by
  simp [IsFresh]

/-- A note without window takes no id. -/
theorem isFresh_succ_of_none (h : window? windows first.2 = none) (n : Nat) :
    IsFresh windows seen (first :: notes) (n + 1) ↔ IsFresh windows seen notes n := by
  simp only [IsFresh, List.getElem?_cons_succ, Nat.forall_lt_succ_left, List.getElem?_cons_zero,
    Option.some.injEq, forall_eq', h, ne_eq, not_true_eq_false, IsEmpty.forall_iff, true_and]

/-- A note with a window takes its id. -/
theorem isFresh_succ_of_some {w : RowWindow R} (h : window? windows first.2 = some w) (n : Nat) :
    IsFresh windows seen (first :: notes) (n + 1) ↔
      IsFresh windows (first.2.id first.1 :: seen) notes n := by
  simp only [IsFresh, List.getElem?_cons_succ, Nat.forall_lt_succ_left, List.getElem?_cons_zero,
    List.mem_cons, not_or, Option.some.injEq, forall_eq', h, ne_eq, reduceCtorEq, not_false_eq_true,
    forall_const]
  refine exists_congr fun e => ?_
  constructor
  · rintro ⟨he, hwindow, hseen, hfirst, hrest⟩
    exact ⟨he, hwindow, ⟨fun heq => hfirst heq.symm, hseen⟩, hrest⟩
  · rintro ⟨he, hwindow, ⟨hfirst, hseen⟩, hrest⟩
    exact ⟨he, hwindow, hseen, fun heq => hfirst heq.symm, hrest⟩

/-- An id that is taken can be taken again. -/
theorem isFresh_cons_of_mem {id : String} (h : id ∈ seen) (n : Nat) :
    IsFresh windows (id :: seen) notes n ↔ IsFresh windows seen notes n := by
  have hmem : ∀ other, other ∉ id :: seen ↔ other ∉ seen := by
    intro other
    rw [List.mem_cons, not_or, and_iff_right_iff_imp]
    rintro hother rfl
    exact hother h
  simp only [IsFresh, hmem]

/-- What mark stands for note `n`. -/
def Marks (g : Geometry R) (windows : Array (RowWindow R)) (notes : List (Nat × Note R)) (n : Nat)
    (i : Indicator R) : Prop :=
  ∃ e w, notes[n]? = some e ∧ window? windows e.2 = some w ∧ i = mark g w (e.2.id e.1) e.2.time

theorem forall₂_marks_succ {g : Geometry R} {places : List Nat} {marks : List (Indicator R)}
    (h : List.Forall₂ (Marks g windows notes) places marks) :
    List.Forall₂ (Marks g windows (first :: notes)) (places.map (· + 1)) marks := by
  rw [List.forall₂_map_left_iff]
  exact h

/-- **The marks are those of the fresh notes**, in order. -/
theorem exists_firsts (g : Geometry R) (windows : Array (RowWindow R)) (seen : List String)
    (notes : List (Nat × Note R)) :
    ∃ places : List Nat, places.Pairwise (· < ·) ∧ (∀ n, n ∈ places ↔ IsFresh windows seen notes n) ∧
      List.Forall₂ (Marks g windows notes) places (markAll g windows seen notes) := by
  induction notes generalizing seen with
  | nil => exact ⟨[], .nil, by simp [IsFresh], .nil⟩
  | cons first notes ih =>
    have hlater : ∀ {places : List Nat}, places.Pairwise (· < ·) →
        (places.map (· + 1)).Pairwise (· < ·) :=
      fun hplaces => List.pairwise_map.2 (hplaces.imp Nat.succ_lt_succ)
    rw [markAll]
    cases hwindow : window? windows first.2 with
    | none =>
      obtain ⟨places, hincreasing, hfresh, hmarks⟩ := ih seen
      refine ⟨places.map (· + 1), hlater hincreasing, fun n => ?_, forall₂_marks_succ hmarks⟩
      cases n with
      | zero => simp [isFresh_zero, hwindow]
      | succ n => simp [isFresh_succ_of_none hwindow, hfresh]
    | some w =>
      by_cases hseen : first.2.id first.1 ∈ seen
      · -- the id is taken, so the note is not marked
        obtain ⟨places, hincreasing, hfresh, hmarks⟩ := ih seen
        simp only [List.contains_iff_mem, hseen, if_true]
        refine ⟨places.map (· + 1), hlater hincreasing, fun n => ?_, forall₂_marks_succ hmarks⟩
        cases n with
        | zero => simp [isFresh_zero, hseen]
        | succ n => simp [isFresh_succ_of_some hwindow, isFresh_cons_of_mem hseen, hfresh]
      · -- the note is marked, and its id is taken from here on
        obtain ⟨places, hincreasing, hfresh, hmarks⟩ := ih (first.2.id first.1 :: seen)
        simp only [List.contains_iff_mem, hseen, if_false]
        refine ⟨0 :: places.map (· + 1), List.pairwise_cons.2 ⟨by simp, hlater hincreasing⟩,
          fun n => ?_, .cons ⟨first, w, rfl, hwindow, rfl⟩ (forall₂_marks_succ hmarks)⟩
        cases n with
        | zero => simp [isFresh_zero, hwindow, hseen]
        | succ n => simp [isFresh_succ_of_some hwindow, hfresh]

end

/-! ## Notes on rows -/

variable {layout : Layout Rat}

/-- **A note has the window of the row on which it falls**, if it falls on any. -/
theorem window?_eq_some_iff (h : layout.IsPartitioned)
    (hspeeds : ∀ s ∈ layout.sections, 0 < s.tilesPerSecond) (g : Geometry Rat) {note : Note Rat}
    {w : RowWindow Rat} :
    let windows := RowWindow.ofRows (PlacedRow.stack g layout.rows) layout.sections
    window? windows.toArray note = some w ↔
      ∃ k, layout.FallsOn note k ∧ windows[k]? = some w := by
  intro windows
  obtain ⟨hlength, hwindows⟩ := h.windows hspeeds g
  have hchained : RowWindow.Chained windows := RowWindow.chained_ofRows _ _
  have hkey : note.pitch.isKey = true ↔ 21 ≤ note.pitch ∧ note.pitch ≤ 108 := by
    simp only [Pitch.isKey, Bool.and_eq_true, decide_eq_true_eq]
    rfl
  rw [window?_eq_some, hkey, hchained.at?_eq_some_iff]
  constructor
  · rintro ⟨hpitch, ⟨hmem, hbegun, hpassing⟩, -, htiles⟩
    obtain ⟨k, hk⟩ := List.mem_iff_getElem?.1 hmem
    have hrow : k < layout.rows.length := hlength ▸ (List.getElem?_eq_some_iff.1 hk).1
    obtain ⟨placed, hwindow, -, -, hcount⟩ := hwindows k _ (List.getElem?_eq_getElem hrow)
    obtain rfl : w = ⟨placed, layout.rowStart k, layout.rowStart (k + 1)⟩ :=
      Option.some.inj (hk.symm.trans hwindow)
    rw [hcount] at htiles
    exact ⟨k, ⟨hpitch, ⟨_, List.getElem?_eq_getElem hrow, Nat.pos_of_ne_zero htiles⟩, hbegun,
      hpassing⟩, hk⟩
  · rintro ⟨k, ⟨hpitch, ⟨row, hrow, htiles⟩, hbegun, hpassing⟩, hk⟩
    obtain ⟨placed, hwindow, -, hstart, hcount⟩ := hwindows k row hrow
    obtain rfl : w = ⟨placed, layout.rowStart k, layout.rowStart (k + 1)⟩ :=
      Option.some.inj (hk.symm.trans hwindow)
    have hcount' : placed.tileCount ≠ 0 := by omega
    exact ⟨hpitch, ⟨List.mem_of_getElem? hk, hbegun, hpassing⟩, hstart, hcount'⟩

theorem isFresh_nil_iff (h : layout.IsPartitioned)
    (hspeeds : ∀ s ∈ layout.sections, 0 < s.tilesPerSecond) (g : Geometry Rat)
    (notes : List (Nat × Note Rat)) (n : Nat) :
    IsFresh (RowWindow.ofRows (PlacedRow.stack g layout.rows) layout.sections).toArray [] notes n ↔
      layout.IsFirst notes n := by
  have hfalls : ∀ note : Note Rat, window? (RowWindow.ofRows (PlacedRow.stack g layout.rows)
      layout.sections).toArray note ≠ none ↔ ∃ k, layout.FallsOn note k := by
    intro note
    rw [Option.ne_none_iff_exists']
    constructor
    · rintro ⟨w, hw⟩
      obtain ⟨k, hk, -⟩ := (window?_eq_some_iff h hspeeds g).1 hw
      exact ⟨k, hk⟩
    · rintro ⟨k, hk⟩
      obtain ⟨row, hrow, -⟩ := hk.tiles
      obtain ⟨placed, hwindow, -⟩ := (h.windows hspeeds g).2 k row hrow
      exact ⟨_, (window?_eq_some_iff h hspeeds g).2 ⟨k, hk, hwindow⟩⟩
  simp [IsFresh, Layout.IsFirst, hfalls, Prod.forall]

/-- **The first note of each id is marked on the row on which it falls**, and nothing else is marked: the
marks stand for these notes, in order. The window of a note is the one that a search through all windows
finds, and no two marks share an id. -/
theorem place_marks_firsts (layout : Layout Rat) (hrows : layout.IsPartitioned)
    (hspeeds : ∀ s ∈ layout.sections, 0 < s.tilesPerSecond) (g : Geometry Rat)
    (timeline : Timeline Rat) :
    let windows := RowWindow.ofRows (PlacedRow.stack g layout.rows) layout.sections
    let marks := place g (PlacedRow.stack g layout.rows) layout.sections timeline
    (∀ k < layout.rows.length, ∀ s ∈ layout.sections, s.containsRow k = true →
      layout.speedAt k = s.tilesPerSecond) ∧
    (∀ time, RowWindow.at? windows.toArray time =
      windows.find? fun w => w.start ≤ time ∧ time < w.stop) ∧
    (∃ places : List Nat, places.Pairwise (· < ·) ∧
      (∀ n, n ∈ places ↔ layout.IsFirst timeline.notes n) ∧
      List.Forall₂ (fun n i => ∃ track note k, timeline.notes[n]? = some (track, note) ∧
        layout.FallsOn note k ∧ i.id = note.id track ∧ i.rowIndex = k + 1 ∧ i.time = note.time ∧
        i.consumed = false) places marks) ∧
    (ids marks).Nodup := by
  intro windows marks
  have hchained : RowWindow.Chained windows := RowWindow.chained_ofRows _ _
  refine ⟨fun k hk s hs hrow => (hrows.speedAt_eq hk hs hrow).2, hchained.at?_eq_find?, ?_,
    nodup_ids_place g _ _ timeline⟩
  obtain ⟨places, hincreasing, hfresh, hmarks⟩ := exists_firsts g windows.toArray [] timeline.notes
  refine ⟨places, hincreasing, fun n => ?_, hmarks.imp ?_⟩
  · rw [hfresh, isFresh_nil_iff hrows hspeeds]
  · rintro n i ⟨⟨track, note⟩, w, hnote, hw, rfl⟩
    obtain ⟨k, hk, hwindow⟩ := (window?_eq_some_iff hrows hspeeds g).1 hw
    obtain ⟨row, hrow, -⟩ := hk.tiles
    obtain ⟨placed, hplaced, hindex, -⟩ := (hrows.windows hspeeds g).2 k row hrow
    -- the window of the mark is that of row `k`
    obtain rfl : w = ⟨placed, layout.rowStart k, layout.rowStart (k + 1)⟩ :=
      Option.some.inj (hwindow.symm.trans hplaced)
    exact ⟨track, note, k, hnote, hk, rfl, hindex, rfl, rfl⟩

/-- The sections are not listed in the order of their rows. One note starts on a row without tiles, one just
where the next row starts, one more in the same millisecond, one when all rows have passed, and one is no
key. -/
theorem place_marks_firsts_boundary :
    let layout : Layout Rat :=
      ⟨[⟨.single, 1⟩, ⟨.empty, 2⟩, ⟨.double, 1⟩], [⟨1, 4, 2, 3, 1⟩, ⟨0, 2, 0, 2, 2⟩]⟩
    let g : Geometry Rat := ⟨1000, 400, 100, 20, 5⟩
    let note : Pitch → Rat → Note Rat := fun pitch time => ⟨pitch, 0, 0, time, 0⟩
    let timeline : Timeline Rat := ⟨960, [], [⟨0, [note 60 0, note 60 (1 / 2), note 109 0,
      note 60 (3 / 2), note 60 (15001 / 10000), note 60 (7 / 4)]⟩]⟩
    let marks := place g (PlacedRow.stack g layout.rows) layout.sections timeline
    layout.IsPartitioned ∧ (∀ s ∈ layout.sections, 0 < s.tilesPerSecond) ∧
      layout.rowStart 2 = 3 / 2 ∧
      marks.map (fun i => (i.id, i.rowIndex)) = [("0-0-60", 1), ("1500-0-60", 3)] ∧
      (∃ places : List Nat, (∀ n, n ∈ places ↔ layout.IsFirst timeline.notes n) ∧ places.length = 2) ∧
      (ids marks).Nodup := by
  intro layout g note timeline marks
  have hrows : layout.IsPartitioned := by
    intro k hk
    have hk : k < 3 := hk
    by_cases hfirst : k < 2
    · exact ⟨⟨0, 2, 0, 2, 2⟩, by simp [layout, Section.containsRow, hfirst],
        by simp [layout, Section.containsRow]; omega⟩
    · obtain rfl : k = 2 := by omega
      exact ⟨⟨1, 4, 2, 3, 1⟩, by simp [layout, Section.containsRow],
        by simp [layout, Section.containsRow]⟩
  have hspeeds : ∀ s ∈ layout.sections, 0 < s.tilesPerSecond := by simp [layout]
  have hmarks : marks.map (fun i => (i.id, i.rowIndex)) = [("0-0-60", 1), ("1500-0-60", 3)] := by
    decide +kernel
  obtain ⟨-, -, ⟨places, -, hfirst, hplaces⟩, hnodup⟩ :=
    place_marks_firsts layout hrows hspeeds g timeline
  have hlength : places.length = 2 := by
    have hcount := congrArg List.length hmarks
    rw [List.length_map] at hcount
    exact hplaces.length_eq.trans hcount
  exact ⟨hrows, hspeeds, by decide +kernel, hmarks, ⟨places, hfirst, hlength⟩, hnodup⟩

end Indicator

end RhythmTiles
