import Mathlib
import RhythmTiles.Proofs.Grid.Marks
import RhythmTiles.Proofs.Tile.Sections

/-!
# Windows and marks

Where every section has usable speed, the windows of the rows follow each other without gaps
(`RowWindow.follow_eq`), and each row passes at the speed of its own section (`Layout.find?_sections`).
The search ends at the first window that is not over (`RowWindow.search_eq`). Notes that have windows
and ids of their own are all marked, in order (`Indicator.forall₂_markAll`).
-/

namespace RhythmTiles

/-! ## Rows on the grid -/

namespace Layout

/-- How fast each row of some sections passes. -/
def speeds (baseBpm : Float) (musics : List Music) : List Float :=
  musics.flatMap fun m => List.replicate (Row.ofMusic m).length (m.tilesPerSecond baseBpm)

/-- **Each row belongs to a section that passes at the row's speed.** -/
theorem find?_sections {baseBpm speed : Float} {musics : List Music} {k : Nat}
    (h : (speeds baseBpm musics)[k]? = some speed) (count : Nat) :
    ∃ s, (ofMusics baseBpm count musics).sections.find? (fun s => s.containsRow (count + k)) = some s ∧
      s.tilesPerSecond = speed := by
  induction musics generalizing count k with
  | nil => simp [speeds] at h
  | cons m musics ih =>
    rw [speeds, List.flatMap_cons] at h
    rw [ofMusics, List.find?_cons]
    by_cases hk : k < (Row.ofMusic m).length
    · rw [List.getElem?_append_left (by simpa using hk), List.getElem?_replicate, if_pos hk] at h
      have hhere : (count ≤ count + k && count + k < count + (Row.ofMusic m).length) = true := by
        simp [hk]
      rw [Section.containsRow, hhere]
      exact ⟨_, rfl, Option.some.inj h⟩
    · rw [List.getElem?_append_right (by simpa using hk), List.length_replicate] at h
      obtain ⟨s, hfind, hspeed⟩ := ih h (count + (Row.ofMusic m).length)
      have hlater : (count ≤ count + k && count + k < count + (Row.ofMusic m).length) = false := by
        simp [hk]
      rw [Nat.add_assoc, Nat.add_sub_cancel' (Nat.le_of_not_lt hk)] at hfind
      rw [Section.containsRow, hlater]
      exact ⟨s, hfind, hspeed⟩

end Layout

section

variable {R : Type} [Quantity R]

/-- A row keeps its place, its height in tiles and its tiles on the grid. -/
theorem PlacedRow.getElem?_stackFrom (g : Geometry R) {rows : List Row} {k : Nat} {row : Row}
    (h : rows[k]? = some row) (index : Nat) (bottom : R) :
    ∃ bottom' height, (stackFrom g index bottom rows)[k]? =
      some ⟨index + k, false, bottom', height, row.height, row.kind.tileCount⟩ := by
  induction rows generalizing k index bottom with
  | nil => simp at h
  | cons first rows ih =>
    cases k with
    | zero =>
      cases h
      exact ⟨bottom, pixelHeight g row, rfl⟩
    | succ k =>
      obtain ⟨bottom', height, hrow⟩ := ih h (index + 1) (bottom - pixelHeight g first)
      rw [Nat.add_assoc, Nat.add_comm 1 k] at hrow
      exact ⟨bottom', height, hrow⟩

theorem PlacedRow.length_stackFrom (g : Geometry R) (index : Nat) (bottom : R) (rows : List Row) :
    (stackFrom g index bottom rows).length = rows.length := by
  induction rows generalizing index bottom with
  | nil => rfl
  | cons row rows ih => simp [stackFrom, ih]

theorem PlacedRow.map_tiles_stackFrom (g : Geometry R) (index : Nat) (bottom : R) (rows : List Row) :
    (stackFrom g index bottom rows).map PlacedRow.tiles = rows.map Row.height := by
  induction rows generalizing index bottom with
  | nil => rfl
  | cons row rows ih => simp [stackFrom, ih]

/-- Only the row at the bottom is the start row. -/
theorem PlacedRow.isStart_of_mem_stackFrom {g : Geometry R} {index : Nat} {bottom : R}
    {rows : List Row} {row : PlacedRow R} (h : row ∈ stackFrom g index bottom rows) :
    row.isStart = false := by
  induction rows generalizing index bottom with
  | nil => cases h
  | cons first rows ih =>
    rcases List.mem_cons.1 h with rfl | h
    · rfl
    · exact ih h

/-! ## Windows -/

namespace RowWindow

/-- The time behind the first `k` of some durations. -/
def edge (time : R) (durations : List R) (k : Nat) : R := (durations.take k).foldl (· + ·) time

/-- How long rows take at their speeds. -/
def durations (rows : List (PlacedRow R)) (speeds : List R) : List R :=
  List.zipWith (fun row speed => Quantity.ofNat row.tiles / speed) rows speeds

/-- **Rows with usable speeds have windows that follow each other.** -/
theorem follow_eq {sections : List (Section R)} {sequence : Nat} {rows : List (PlacedRow R)}
    {speeds : List R} (hlength : speeds.length = rows.length)
    (hrows : ∀ row ∈ rows, row.isStart = false)
    (hspeeds : ∀ speed ∈ speeds, Quantity.isFinite speed = true ∧ Quantity.ofNat 0 < speed)
    (hsections : ∀ k speed, speeds[k]? = some speed →
      ∃ s, sections.find? (fun s => s.containsRow (sequence + k)) = some s ∧
        s.tilesPerSecond = speed) (time : R) :
    (follow sections time sequence rows).length = rows.length ∧
      ∀ (k : Nat) (row : PlacedRow R), rows[k]? = some row → (follow sections time sequence rows)[k]? =
        some ⟨row, edge time (durations rows speeds) k, edge time (durations rows speeds) (k + 1)⟩ := by
  induction rows generalizing sequence speeds time with
  | nil => exact ⟨rfl, fun k row h => by cases h⟩
  | cons row rows ih =>
    obtain ⟨speed, speeds, rfl⟩ : ∃ speed rest, speeds = speed :: rest :=
      List.exists_cons_of_length_eq_add_one hlength
    obtain ⟨hrow, hrows⟩ := List.forall_mem_cons.1 hrows
    obtain ⟨s, hfind, rfl⟩ := hsections 0 speed rfl
    obtain ⟨husable, hspeeds⟩ := List.forall_mem_cons.1 hspeeds
    -- the next row is counted from one further on
    have hlater : ∀ k speed, speeds[k]? = some speed →
        ∃ s, sections.find? (fun s => s.containsRow (sequence + 1 + k)) = some s ∧
          s.tilesPerSecond = speed := by
      intro k speed hk
      have hnext := hsections (k + 1) speed hk
      rwa [Nat.add_comm k 1, ← Nat.add_assoc] at hnext
    obtain ⟨hlength, hwindows⟩ := ih (Nat.succ.inj hlength) hrows hspeeds hlater
      (time + Quantity.ofNat row.tiles / s.tilesPerSecond)
    rw [Nat.add_zero] at hfind
    rw [follow, if_neg (by simp [hrow])]
    simp only [hfind, if_pos husable]
    refine ⟨by rw [List.length_cons, List.length_cons, hlength], fun k other hk => ?_⟩
    cases k with
    | zero =>
      cases hk
      rfl
    | succ k => exact hwindows k other hk

/-- **The search ends at the first window that is not over.** -/
theorem search_eq {windows : Array (RowWindow R)} {time : R} {k low high : Nat}
    (h : ∀ i w, windows[i]? = some w → (w.stop ≤ time ↔ i < k)) (hlow : low ≤ k) (hhigh : k ≤ high)
    (hsize : high ≤ windows.size) : search windows time low high = k := by
  fun_induction search windows time low high with
  | case1 low high hlt middle w hw hstop ih =>
    have hmiddle := (h middle w hw).1 hstop
    exact ih (by omega) hhigh hsize
  | case2 low high hlt middle w hw hstop ih =>
    have hmiddle : ¬middle < k := fun hk => hstop ((h middle w hw).2 hk)
    exact ih hlow (by omega) (by omega)
  | case3 low high hlt middle hw =>
    have hin : middle < windows.size := by omega
    rw [Array.getElem?_eq_getElem hin] at hw
    cases hw
  | case4 low high hlt => omega

/-- A time is in the first window that is not over, if that has begun. -/
theorem at?_eq {windows : Array (RowWindow R)} {time : R} {k : Nat} {w : RowWindow R}
    (h : ∀ i w, windows[i]? = some w → (w.stop ≤ time ↔ i < k)) (hw : windows[k]? = some w)
    (hstart : w.start ≤ time) : at? windows time = some w := by
  obtain ⟨hsize, -⟩ := Array.getElem?_eq_some_iff.1 hw
  rw [at?, search_eq h (Nat.zero_le k) (Nat.le_of_lt hsize) (Nat.le_refl _), hw, Option.filter,
    if_pos (by simpa using hstart)]

end RowWindow

/-! ## Marks -/

namespace Indicator

theorem window?_eq {windows : Array (RowWindow R)} {note : Note R} {w : RowWindow R}
    (hkey : note.pitch.isKey = true) (hat : RowWindow.at? windows note.time = some w)
    (hrow : w.row.isStart = false) (htiles : w.row.tileCount ≠ 0) :
    window? windows note = some w := by
  rw [window?, if_pos hkey, hat, Option.filter, if_pos (by simp [hrow, htiles])]

/-- **Notes with windows and ids of their own are all marked**, in order. -/
theorem forall₂_markAll (g : Geometry R) {windows : Array (RowWindow R)} {seen : List String}
    {notes : List (Nat × Note R)} (hwindows : ∀ note ∈ notes, ∃ w, window? windows note.2 = some w)
    (hids : (notes.map fun note => note.2.id note.1).Nodup)
    (hseen : ∀ note ∈ notes, note.2.id note.1 ∉ seen) :
    List.Forall₂ (fun note i => ∃ w, window? windows note.2 = some w ∧
      i = mark g w (note.2.id note.1) note.2.time) notes (markAll g windows seen notes) := by
  induction notes generalizing seen with
  | nil => exact .nil
  | cons note notes ih =>
    obtain ⟨track, note⟩ := note
    obtain ⟨⟨w, hw⟩, hwindows⟩ := List.forall_mem_cons.1 hwindows
    obtain ⟨hfresh, hseen⟩ := List.forall_mem_cons.1 hseen
    obtain ⟨hid, hids⟩ := List.nodup_cons.1 hids
    rw [markAll]
    simp only [hw]
    rw [if_neg (by simpa using hfresh)]
    refine .cons ⟨w, hw, rfl⟩ (ih hwindows hids fun other hother hmem => ?_)
    rcases List.mem_cons.1 hmem with heq | hmem
    · exact hid (List.mem_map.2 ⟨other, hother, heq⟩)
    · exact hseen other hother hmem

theorem ids_markAll_sublist (g : Geometry R) (windows : Array (RowWindow R)) (seen : List String)
    (notes : List (Nat × Note R)) :
    (ids (markAll g windows seen notes)).Sublist (notes.map fun note => note.2.id note.1) := by
  fun_induction markAll g windows seen notes with
  | case1 seen => exact List.Sublist.refl []
  | case2 seen track note notes hwindow ih => exact ih.cons _
  | case3 seen track note notes w hwindow id hseen ih => exact ih.cons _
  | case4 seen track note notes w hwindow id hseen ih => exact ih.cons_cons _

/-- Where notes share an id, there are fewer marks than notes. -/
theorem length_markAll_lt (g : Geometry R) (windows : Array (RowWindow R)) (seen : List String)
    {notes : List (Nat × Note R)} (hids : ¬(notes.map fun note => note.2.id note.1).Nodup) :
    (markAll g windows seen notes).length < notes.length := by
  have hsub := ids_markAll_sublist g windows seen notes
  by_contra hlength
  refine hids (hsub.eq_of_length_le ?_ ▸ nodup_ids_markAll g windows seen notes)
  rw [List.length_map, ids, List.length_map]
  exact Nat.le_of_not_lt hlength

end Indicator

end

end RhythmTiles
