import Mathlib
import RhythmTiles.Proofs.Grid.Windows

/-!
# Windows one after the other

In exact numbers the windows of rows are listed as time goes by, whatever the speeds of the sections
(`chained_ofRows`). So at most one of them holds a time, and the search finds it where a search through all
windows does (`at?_eq_find?`). The rows of the windows are some of the rows in their order
(`sublist_follow`).
-/

namespace RhythmTiles.RowWindow

/-- No window ends before it starts, and none starts before an earlier one ends. -/
structure Chained (windows : List (RowWindow Rat)) : Prop where
  forward : ∀ w ∈ windows, w.start ≤ w.stop
  apart : windows.Pairwise fun earlier later => earlier.stop ≤ later.start

theorem chained_nil : Chained [] := ⟨by simp, .nil⟩

theorem Chained.tail {w : RowWindow Rat} {windows : List (RowWindow Rat)} (h : Chained (w :: windows)) :
    Chained windows :=
  ⟨fun other hother => h.forward other (List.mem_cons_of_mem _ hother), h.apart.of_cons⟩

theorem Chained.cons {w : RowWindow Rat} {windows : List (RowWindow Rat)} (h : Chained windows)
    (hforward : w.start ≤ w.stop) (hlater : ∀ later ∈ windows, w.stop ≤ later.start) :
    Chained (w :: windows) :=
  ⟨List.forall_mem_cons.2 ⟨hforward, h.forward⟩, List.pairwise_cons.2 ⟨hlater, h.apart⟩⟩

/-- Sections without usable speed leave no gap either. -/
theorem chained_follow (sections : List (Section Rat)) (time : Rat) (sequence : Nat)
    (rows : List (PlacedRow Rat)) :
    Chained (follow sections time sequence rows) ∧
      ∀ w ∈ follow sections time sequence rows, time ≤ w.start := by
  fun_induction follow sections time sequence rows with
  | case1 time sequence => exact ⟨chained_nil, by simp⟩
  | case2 time sequence row rows hstart ih => exact ih
  | case3 time sequence row rows hstart hfind => exact ⟨chained_nil, by simp⟩
  | case4 time sequence row rows hstart s hfind husable stop ih =>
    obtain ⟨hchained, hlater⟩ := ih
    have hstop : time ≤ stop := by
      have hspeed : (0 : Rat) < s.tilesPerSecond := husable.2
      have htiles : (0 : Rat) ≤ row.tiles := Nat.cast_nonneg _
      exact le_add_of_nonneg_right (div_nonneg htiles hspeed.le)
    exact ⟨hchained.cons hstop hlater, List.forall_mem_cons.2
      ⟨le_rfl, fun later hmem => hstop.trans (hlater later hmem)⟩⟩
  | case5 time sequence row rows hstart s hfind husable ih => exact ih

theorem chained_ofRows (rows : List (PlacedRow Rat)) (sections : List (Section Rat)) :
    Chained (ofRows rows sections) :=
  (chained_follow sections _ _ rows).1

/-- The rows of the windows are some of the rows. -/
theorem sublist_follow {R : Type} [Quantity R] (sections : List (Section R)) (time : R) (sequence : Nat)
    (rows : List (PlacedRow R)) :
    ((follow sections time sequence rows).map RowWindow.row).Sublist rows := by
  fun_induction follow sections time sequence rows with
  | case1 time sequence => exact List.Sublist.slnil
  | case2 time sequence row rows hstart ih => exact ih.cons row
  | case3 time sequence row rows hstart hfind => exact List.nil_sublist _
  | case4 time sequence row rows hstart s hfind husable stop ih => exact ih.cons_cons row
  | case5 time sequence row rows hstart s hfind husable ih => exact ih.cons row

/-! ## The search -/

variable {windows : List (RowWindow Rat)}

/-- The windows that are over come first. -/
theorem Chained.stop_le_iff (h : Chained windows) (time : Rat) {i : Nat} {w : RowWindow Rat}
    (hw : windows[i]? = some w) :
    w.stop ≤ time ↔ i < windows.findIdx fun w => time < w.stop := by
  obtain ⟨hlt, rfl⟩ := List.getElem?_eq_some_iff.1 hw
  constructor
  · intro hover
    by_contra hge
    have hfound : windows.findIdx (fun w => time < w.stop) < windows.length := by omega
    have hopen := List.findIdx_getElem (w := hfound)
    simp only [decide_eq_true_eq] at hopen
    rcases Nat.eq_or_lt_of_le (not_lt.1 hge) with heq | hbefore
    · simp only [heq] at hopen
      linarith
    · have hnext := List.pairwise_iff_getElem.1 h.apart _ i hfound hlt hbefore
      have hforward := h.forward _ (List.getElem_mem hlt)
      linarith
  · intro hbefore
    simpa using List.not_of_lt_findIdx hbefore

/-- Behind a window that is not over, no window has begun. -/
theorem Chained.filter_find? (h : Chained windows) (time : Rat) :
    ((windows.find? fun w => time < w.stop).filter fun w => w.start ≤ time) =
      windows.find? fun w => w.start ≤ time ∧ time < w.stop := by
  induction windows with
  | nil => rfl
  | cons w windows ih =>
    by_cases hopen : time < w.stop
    · by_cases hbegun : w.start ≤ time
      · simp [hopen, hbegun]
      · have hlater := (List.pairwise_cons.1 h.apart).1
        have hnone : windows.find? (fun w => w.start ≤ time ∧ time < w.stop) = none := by
          rw [List.find?_eq_none]
          intro later hmem
          have hstart := hlater later hmem
          simp only [decide_eq_true_eq, not_and, not_lt]
          intro hbegun
          linarith
        rw [List.find?_cons_of_pos (by simpa using hopen),
          List.find?_cons_of_neg (by simp [hbegun]), hnone]
        simp [Option.filter, hbegun]
    · simp [hopen, ih h.tail]

/-- **The search finds what a search through all windows finds.** -/
theorem Chained.at?_eq_find? (h : Chained windows) (time : Rat) :
    at? windows.toArray time = windows.find? fun w => w.start ≤ time ∧ time < w.stop := by
  have hsearch : search windows.toArray time 0 windows.toArray.size =
      windows.findIdx fun w => time < w.stop := by
    refine search_eq (fun i w hw => ?_) (Nat.zero_le _) ?_ le_rfl
    · rw [List.getElem?_toArray] at hw
      exact h.stop_le_iff time hw
    · rw [List.size_toArray]
      exact List.findIdx_le_length
  rw [at?, hsearch, List.getElem?_toArray, ← List.find?_eq_getElem?_findIdx, h.filter_find?]

/-- No two windows hold the same time. -/
theorem Chained.eq_of_holds (h : Chained windows) {time : Rat} {w w' : RowWindow Rat} (hw : w ∈ windows)
    (hw' : w' ∈ windows) (hin : w.start ≤ time ∧ time < w.stop)
    (hin' : w'.start ≤ time ∧ time < w'.stop) : w = w' := by
  obtain ⟨i, hi, rfl⟩ := List.getElem_of_mem hw
  obtain ⟨j, hj, rfl⟩ := List.getElem_of_mem hw'
  rcases lt_trichotomy i j with hij | rfl | hji
  · have hapart := List.pairwise_iff_getElem.1 h.apart i j hi hj hij
    linarith [hin.2, hin'.1]
  · rfl
  · have hapart := List.pairwise_iff_getElem.1 h.apart j i hj hi hji
    linarith [hin.1, hin'.2]

theorem Chained.at?_eq_some_iff (h : Chained windows) {time : Rat} {w : RowWindow Rat} :
    at? windows.toArray time = some w ↔ w ∈ windows ∧ w.start ≤ time ∧ time < w.stop := by
  rw [h.at?_eq_find?]
  constructor
  · intro hfind
    exact ⟨List.mem_of_find?_eq_some hfind, by simpa using List.find?_some hfind⟩
  · rintro ⟨hw, hin⟩
    have hsome : (windows.find? fun w => w.start ≤ time ∧ time < w.stop).isSome = true := by
      rw [List.find?_isSome]
      exact ⟨w, hw, by simpa using hin⟩
    obtain ⟨w', hfind⟩ := Option.isSome_iff_exists.1 hsome
    have hin' : w'.start ≤ time ∧ time < w'.stop := by simpa using List.find?_some hfind
    rw [hfind, h.eq_of_holds hw (List.mem_of_find?_eq_some hfind) hin hin']

end RhythmTiles.RowWindow
