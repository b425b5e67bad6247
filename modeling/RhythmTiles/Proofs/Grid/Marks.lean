import RhythmTiles.Grid.Indicator

/-!
# The marks of a timeline

Notes are marked one after the other. A note whose id is taken gets no mark, so the ids of all marks
differ (`nodup_ids_place`), and every mark starts out unconsumed (`consumed_of_mem_place`).
-/

namespace RhythmTiles.Indicator

variable {R : Type}

def ids (indicators : List (Indicator R)) : List String := indicators.map Indicator.id

variable [Quantity R]

/-- Marks only get ids that are not taken. -/
theorem id_not_mem_of_mem_markAll {g : Geometry R} {windows : Array (RowWindow R)}
    {seen : List String} {notes : List (Nat × Note R)} {i : Indicator R}
    (h : i ∈ markAll g windows seen notes) : i.id ∉ seen := by
  fun_induction markAll g windows seen notes with
  | case1 seen => cases h
  | case2 seen track note notes hwindow ih => exact ih h
  | case3 seen track note notes w hwindow id hseen ih => exact ih h
  | case4 seen track note notes w hwindow id hseen ih =>
    rcases List.mem_cons.1 h with rfl | h
    · simpa [mark] using hseen
    · exact fun hmem => ih h (List.mem_cons_of_mem _ hmem)

/-- No two marks have the same id. -/
theorem nodup_ids_markAll (g : Geometry R) (windows : Array (RowWindow R)) (seen : List String)
    (notes : List (Nat × Note R)) : (ids (markAll g windows seen notes)).Nodup := by
  fun_induction markAll g windows seen notes with
  | case1 seen => exact List.nodup_nil
  | case2 seen track note notes hwindow ih => exact ih
  | case3 seen track note notes w hwindow id hseen ih => exact ih
  | case4 seen track note notes w hwindow id hseen ih =>
    refine List.nodup_cons.2 ⟨?_, ih⟩
    intro hmem
    obtain ⟨i, hi, hid⟩ := List.mem_map.1 hmem
    exact id_not_mem_of_mem_markAll hi (hid ▸ List.mem_cons_self)

theorem consumed_of_mem_markAll {g : Geometry R} {windows : Array (RowWindow R)}
    {seen : List String} {notes : List (Nat × Note R)} {i : Indicator R}
    (h : i ∈ markAll g windows seen notes) : i.consumed = false := by
  fun_induction markAll g windows seen notes with
  | case1 seen => cases h
  | case2 seen track note notes hwindow ih => exact ih h
  | case3 seen track note notes w hwindow id hseen ih => exact ih h
  | case4 seen track note notes w hwindow id hseen ih =>
    rcases List.mem_cons.1 h with rfl | h
    · rfl
    · exact ih h

variable (g : Geometry R) (rows : List (PlacedRow R)) (sections : List (Section R))
  (timeline : Timeline R)

/-- **The ids of a timeline's indicators differ.** -/
theorem nodup_ids_place : (ids (place g rows sections timeline)).Nodup :=
  nodup_ids_markAll g _ [] timeline.notes

/-- An indicator starts out unconsumed. -/
theorem consumed_of_mem_place {i : Indicator R} (h : i ∈ place g rows sections timeline) :
    i.consumed = false :=
  consumed_of_mem_markAll h

end RhythmTiles.Indicator
