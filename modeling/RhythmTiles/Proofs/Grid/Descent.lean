import RhythmTiles.Proofs.Grid.Placement
import RhythmTiles.Proofs.SideBySide

/-!
# Marks and the rows they lie on

Rows are stacked upward and their windows follow each other in the same order
(`RowWindow.pairwise_ofRows`), also past rows that take space but no time. So a mark lies on its own row, as
far up as its time is into the window (`Indicator.IsIn.y_bounds`), and of two marks the later one lies higher.
Main theorem: `Indicator.place_descends`.
-/

namespace RhythmTiles

/-! ## Rows upward -/

namespace PlacedRow

variable {g : Geometry Rat} {rows : List Row}

/-- Every row has height, and each lies above those before it. -/
theorem pairwise_stackFrom (hbase : 0 ≤ g.baseTileHeight) (index : Nat) (bottom : Rat)
    (rows : List Row) :
    (stackFrom g index bottom rows).Pairwise (fun lower upper => upper.bottom ≤ lower.bottom - lower.height) ∧
      ∀ row ∈ stackFrom g index bottom rows, row.bottom ≤ bottom := by
  induction rows generalizing index bottom with
  | nil => exact ⟨.nil, by simp [stackFrom]⟩
  | cons row rows ih =>
    obtain ⟨hpairwise, hbelow⟩ := ih (index + 1) (bottom - pixelHeight g row)
    have hheight : 0 ≤ pixelHeight g row := mul_nonneg (Nat.cast_nonneg _) hbase
    refine ⟨List.pairwise_cons.2 ⟨hbelow, hpairwise⟩, List.forall_mem_cons.2 ⟨le_rfl, ?_⟩⟩
    intro upper hupper
    exact (hbelow upper hupper).trans (sub_le_self _ hheight)

theorem height_pos_of_mem_stackFrom (hbase : 0 < g.baseTileHeight) (hrows : ∀ row ∈ rows, 1 ≤ row.height)
    {index : Nat} {bottom : Rat} {row : PlacedRow Rat} (h : row ∈ stackFrom g index bottom rows) :
    0 < row.height := by
  induction rows generalizing index bottom with
  | nil => cases h
  | cons first rows ih =>
    obtain ⟨hfirst, hrows⟩ := List.forall_mem_cons.1 hrows
    rcases List.mem_cons.1 h with rfl | h
    · exact mul_pos (Nat.cast_pos.2 hfirst) hbase
    · exact ih hrows h

theorem getElem?_index_stackFrom {index : Nat} {bottom : Rat} {row : PlacedRow Rat}
    (h : row ∈ stackFrom g index bottom rows) :
    ∃ k, row.index = index + k ∧ (stackFrom g index bottom rows)[k]? = some row := by
  induction rows generalizing index bottom with
  | nil => cases h
  | cons first rows ih =>
    rcases List.mem_cons.1 h with rfl | h
    · exact ⟨0, rfl, rfl⟩
    · obtain ⟨k, hindex, hk⟩ := ih h
      exact ⟨k + 1, by omega, hk⟩

/-- The start row is at the bottom of the stack. -/
theorem pairwise_stack (hbase : 0 ≤ g.baseTileHeight) (rows : List Row) :
    (stack g rows).Pairwise fun lower upper => upper.bottom ≤ lower.bottom - lower.height := by
  obtain ⟨hpairwise, hbelow⟩ :=
    pairwise_stackFrom hbase 1 (g.viewportHeight - g.baseTileHeight) rows
  exact List.pairwise_cons.2 ⟨hbelow, hpairwise⟩

end PlacedRow

/-! ## Windows upward -/

namespace RowWindow

/-- **Later windows are those of higher rows**, whatever rows between them take no time. -/
theorem pairwise_ofRows {g : Geometry Rat} (hbase : 0 ≤ g.baseTileHeight) (rows : List Row)
    (sections : List (Section Rat)) :
    (ofRows (PlacedRow.stack g rows) sections).Pairwise fun earlier later =>
      earlier.stop ≤ later.start ∧ later.row.bottom ≤ earlier.row.bottom - earlier.row.height := by
  have hstacked := (PlacedRow.pairwise_stack hbase rows).sublist
    (sublist_follow sections 0 0 (PlacedRow.stack g rows))
  exact (chained_ofRows _ _).apart.and (List.pairwise_map.1 hstacked)

end RowWindow

namespace Indicator

/-! ## Marks in their windows -/

/-- The mark of a note that starts in a window. -/
structure IsIn (g : Geometry Rat) (w : RowWindow Rat) (i : Indicator Rat) : Prop where
  begun : w.start ≤ i.time
  passing : i.time < w.stop
  isMark : i = mark g w i.id i.time

variable {g : Geometry Rat} {w w' : RowWindow Rat} {i j : Indicator Rat}

theorem IsIn.y_eq (h : IsIn g w i) : i.y = w.row.bottom - g.baseTileHeight -
    (i.time - w.start) / (w.stop - w.start) * w.row.height - g.indicatorOffset :=
  congrArg y h.isMark

/-- A mark lies within the height of its row, up to where it is anchored. -/
theorem IsIn.y_bounds (h : IsIn g w i) (hheight : 0 < w.row.height) :
    w.row.bottom - g.baseTileHeight - w.row.height - g.indicatorOffset < i.y ∧
      i.y ≤ w.row.bottom - g.baseTileHeight - g.indicatorOffset := by
  have hbegun := h.begun
  have hpassing := h.passing
  have hlength : 0 < w.stop - w.start := by linarith
  have hnonneg : 0 ≤ (i.time - w.start) / (w.stop - w.start) := div_nonneg (by linarith) hlength.le
  have hlt : (i.time - w.start) / (w.stop - w.start) < 1 := by
    rw [div_lt_one hlength]
    linarith
  have hlow : 0 ≤ (i.time - w.start) / (w.stop - w.start) * w.row.height :=
    mul_nonneg hnonneg hheight.le
  have hhigh : (i.time - w.start) / (w.stop - w.start) * w.row.height < w.row.height :=
    mul_lt_of_lt_one_left hheight hlt
  rw [h.y_eq]
  constructor <;> linarith

/-- Later in the same window is higher. -/
theorem IsIn.y_lt (h : IsIn g w i) (h' : IsIn g w j) (hheight : 0 < w.row.height)
    (hlater : i.time < j.time) : j.y < i.y := by
  have hlength : 0 < w.stop - w.start := sub_pos.2 (h.begun.trans_lt h.passing)
  have hfraction : (i.time - w.start) / (w.stop - w.start) < (j.time - w.start) / (w.stop - w.start) :=
    div_lt_div_of_pos_right (by linarith) hlength
  have hlift := mul_lt_mul_of_pos_right hfraction hheight
  rw [h.y_eq, h'.y_eq]
  linarith

/-- A mark in the window of a row further up is higher. -/
theorem IsIn.y_lt_of_stacked (h : IsIn g w i) (h' : IsIn g w' j) (hheight : 0 < w.row.height)
    (hheight' : 0 < w'.row.height) (hstacked : w'.row.bottom ≤ w.row.bottom - w.row.height) :
    j.y < i.y := by
  obtain ⟨hlow, -⟩ := h.y_bounds hheight
  obtain ⟨-, hhigh⟩ := h'.y_bounds hheight'
  linarith

/-- Every mark is in the window of a row above the start row. -/
theorem exists_isIn_of_mem_place {rows : List Row} {sections : List (Section Rat)}
    {timeline : Timeline Rat} (h : i ∈ place g (PlacedRow.stack g rows) sections timeline) :
    ∃ w ∈ RowWindow.ofRows (PlacedRow.stack g rows) sections,
      w.row ∈ PlacedRow.stackFrom g 1 (g.viewportHeight - g.baseTileHeight) rows ∧ w.row.isStart = false ∧
        IsIn g w i := by
  obtain ⟨places, -, -, hmarks⟩ :=
    exists_firsts g (RowWindow.ofRows (PlacedRow.stack g rows) sections).toArray [] timeline.notes
  obtain ⟨n, -, e, w, -, hw, rfl⟩ := exists_of_mem_right hmarks h
  obtain ⟨-, hat, hstart, -⟩ := window?_eq_some.1 hw
  obtain ⟨hmem, hbegun, hpassing⟩ := (RowWindow.chained_ofRows _ _).at?_eq_some_iff.1 hat
  refine ⟨w, hmem, ?_, hstart, hbegun, hpassing, rfl⟩
  have hrow : w.row ∈ PlacedRow.stack g rows :=
    (RowWindow.sublist_follow sections _ 0 _).subset (List.mem_map_of_mem hmem)
  rcases List.mem_cons.1 hrow with hfirst | hrow
  · rw [hfirst] at hstart
    cases hstart
  · exact hrow

/-- **Marks lie on their rows, and later marks lie higher**: each mark is within its row, marks at the same
time are level, and of two others the later one has the smaller coordinate. -/
theorem place_descends (g : Geometry Rat) (hbase : 0 < g.baseTileHeight) (rows : List Row)
    (hrows : ∀ row ∈ rows, 1 ≤ row.height) (sections : List (Section Rat)) (timeline : Timeline Rat) :
    let placed := PlacedRow.stack g rows
    let marks := place g placed sections timeline
    (∀ i ∈ marks, ∃ row, placed[i.rowIndex]? = some row ∧ row.isStart = false ∧
      row.bottom - g.baseTileHeight - row.height - g.indicatorOffset < i.y ∧
      i.y ≤ row.bottom - g.baseTileHeight - g.indicatorOffset) ∧
    ∀ i ∈ marks, ∀ j ∈ marks, (i.time < j.time → j.y < i.y) ∧ (i.time = j.time → i.y = j.y) := by
  intro placed marks
  constructor
  · intro i hi
    obtain ⟨w, -, hrow, hstart, hin⟩ := exists_isIn_of_mem_place hi
    obtain ⟨k, hindex, hplaced⟩ := PlacedRow.getElem?_index_stackFrom hrow
    have hmarked : placed[i.rowIndex]? = some w.row := by
      rw [hin.isMark]
      simp only [mark, hindex, Nat.add_comm 1 k]
      exact hplaced
    have hheight := PlacedRow.height_pos_of_mem_stackFrom hbase hrows hrow
    exact ⟨w.row, hmarked, hstart, hin.y_bounds hheight⟩
  · intro i hi j hj
    obtain ⟨w, hw, hrow, -, hin⟩ := exists_isIn_of_mem_place hi
    obtain ⟨w', hw', hrow', -, hin'⟩ := exists_isIn_of_mem_place hj
    have hheight := PlacedRow.height_pos_of_mem_stackFrom hbase hrows hrow
    have hheight' := PlacedRow.height_pos_of_mem_stackFrom hbase hrows hrow'
    constructor
    · intro hlater
      -- The later mark is in the same window or in a later one: no earlier window lasts so long.
      have hwindows := List.pairwise_iff_getElem.1 (RowWindow.pairwise_ofRows hbase.le rows sections)
      obtain ⟨p, hp, rfl⟩ := List.getElem_of_mem hw
      obtain ⟨q, hq, rfl⟩ := List.getElem_of_mem hw'
      rcases lt_trichotomy p q with hpq | rfl | hqp
      · obtain ⟨-, hstacked⟩ := hwindows p q hp hq hpq
        exact hin.y_lt_of_stacked hin' hheight hheight' hstacked
      · exact hin.y_lt hin' hheight hlater
      · obtain ⟨hapart, -⟩ := hwindows q p hq hp hqp
        linarith [hin.begun, hin'.passing]
    · intro hsame
      obtain rfl : w = w' := (RowWindow.chained_ofRows _ _).eq_of_holds hw hw'
        ⟨hin.begun, hin.passing⟩ ⟨hsame ▸ hin'.begun, hsame ▸ hin'.passing⟩
      rw [hin.y_eq, hin'.y_eq, hsame]

/-- Between two sections that play is one that takes space but no time: the note just behind it lies above
its rows. -/
theorem place_descends_idle_section :
    let g : Geometry Rat := ⟨1000, 400, 100, 20, 5⟩
    let rows : List Row := [⟨.single, 1⟩, ⟨.single, 2⟩, ⟨.double, 1⟩]
    let sections : List (Section Rat) := [⟨0, 2, 0, 1, 1⟩, ⟨1, 0, 1, 2, 1⟩, ⟨2, 2, 2, 3, 1⟩]
    let note : Pitch → Rat → Note Rat := fun pitch time => ⟨pitch, 0, 0, time, 0⟩
    let timeline : Timeline Rat :=
      ⟨960, [], [⟨0, [note 60 (1 / 4), note 62 (1 / 2)]⟩, ⟨1, [note 64 (1 / 2)]⟩]⟩
    let marks := place g (PlacedRow.stack g rows) sections timeline
    0 < g.baseTileHeight ∧ (∀ row ∈ rows, 1 ≤ row.height) ∧
      marks.map (fun i => (i.time, i.rowIndex, i.y)) =
        [(1 / 4, 1, 745), (1 / 2, 3, 495), (1 / 2, 3, 495)] ∧
      ∀ i ∈ marks, ∀ j ∈ marks, (i.time < j.time → j.y < i.y) ∧ (i.time = j.time → i.y = j.y) := by
  intro g rows sections note timeline marks
  have hbase : 0 < g.baseTileHeight := by simp [g]
  have hrows : ∀ row ∈ rows, 1 ≤ row.height := by simp [rows]
  obtain ⟨-, hdescends⟩ := place_descends g hbase rows hrows sections timeline
  exact ⟨hbase, hrows, by decide +kernel, hdescends⟩

end Indicator

end RhythmTiles
