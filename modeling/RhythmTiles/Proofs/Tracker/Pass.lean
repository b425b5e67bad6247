import RhythmTiles.Tracker

/-!
# One scan of a tracker

Scans of indicators and of notes are one pass over events, each an id with a time (`pass`). A pass
reports due events whose ids are not remembered, each id once, remembers what it reports, and then
remembers every due id (`mem_pass`, `nodup_pass`, `tracker_pass`, `isConsumed_of_isDue`). Pruning
forgets only events from before the retention (`mem_prune`).
-/

namespace RhythmTiles

variable {R : Type}

def Indicator.event (i : Indicator R) : String × R := (i.id, i.time)

def Note.event [Quantity R] (note : Nat × Note R) : String × R := (note.2.id note.1, note.2.time)

namespace Tracker

/-- The events of the indicators that are not consumed. -/
def freshEvents (indicators : List (Indicator R)) : List (String × R) :=
  (indicators.filter fun i => !i.consumed).map Indicator.event

/-! ## Claims -/

theorem isConsumed_iff {t : Tracker R} {id : String} :
    t.isConsumed id = true ↔ ∃ time, (id, time) ∈ t.consumed := by
  simp [isConsumed]

theorem claim_of_isConsumed {t : Tracker R} {id : String} (h : t.isConsumed id = true) (time : R) :
    t.claim id time = (false, t) := by
  simp [claim, h]

theorem claim_of_not_isConsumed {t : Tracker R} {id : String} (h : t.isConsumed id = false)
    (time : R) : t.claim id time = (true, { t with consumed := (id, time) :: t.consumed }) := by
  simp [claim, h]

variable [Quantity R]

@[simp] theorem isDue_claim (t : Tracker R) (id : String) (time time' now : R) :
    (t.claim id time).2.isDue time' now = t.isDue time' now := by
  unfold claim
  split <;> rfl

/-! ## Scans are passes -/

/-- Goes through events, claims those that are due, and reports the new ones. -/
def pass (t : Tracker R) (now : R) : List (String × R) → Tracker R × List (String × R)
  | [] => (t, [])
  | e :: events =>
    if t.isDue e.2 now then
      let (isNew, t) := t.claim e.1 e.2
      let (t, fired) := t.pass now events
      (t, if isNew then e :: fired else fired)
    else t.pass now events

/-- A scan of indicators is a pass over the events of those that are not consumed. -/
theorem passIndicators_eq (t : Tracker R) (now : R) (indicators : List (Indicator R)) :
    (t.passIndicators now indicators).tracker = (t.pass now (freshEvents indicators)).1 ∧
      (t.passIndicators now indicators).fired =
        (t.pass now (freshEvents indicators)).2.map Prod.fst := by
  induction indicators generalizing t with
  | nil => exact ⟨rfl, rfl⟩
  | cons i indicators ih =>
    unfold passIndicators
    cases hconsumed : i.consumed with
    | true =>
      have hfresh : freshEvents (i :: indicators) = freshEvents indicators := by
        simp [freshEvents, hconsumed]
      rw [hfresh]
      exact ih t
    | false =>
      have hfresh : freshEvents (i :: indicators) = i.event :: freshEvents indicators := by
        simp [freshEvents, hconsumed]
      rw [hfresh, pass]
      by_cases hdue : t.isDue i.time now = true
      · have hdue' : t.isDue i.event.2 now = true := hdue
        obtain ⟨htracker, hfired⟩ := ih (t.claim i.id i.time).2
        rw [if_neg (by simp [hdue]), if_pos hdue']
        refine ⟨htracker, ?_⟩
        simp only [hfired, apply_ite (List.map Prod.fst)]
        rfl
      · have hdue' : ¬t.isDue i.event.2 now = true := hdue
        rw [if_pos (by simp [hdue]), if_neg hdue']
        exact ih t

/-- A scan hands the indicators back, those that are due consumed. -/
theorem indicators_passIndicators (t : Tracker R) (now : R) (indicators : List (Indicator R)) :
    (t.passIndicators now indicators).indicators =
      indicators.map fun i => if t.isDue i.time now then { i with consumed := true } else i := by
  induction indicators generalizing t with
  | nil => rfl
  | cons i indicators ih =>
    unfold passIndicators
    by_cases hdue : t.isDue i.time now = true
    · cases hconsumed : i.consumed with
      | true =>
        have hsame : { i with consumed := true } = i := by rw [← hconsumed]
        rw [if_pos (by simp), List.map_cons, if_pos hdue, hsame]
        exact congrArg (i :: ·) (ih t)
      | false =>
        rw [if_neg (by simp [hdue]), List.map_cons, if_pos hdue]
        have hrest := ih (t.claim i.id i.time).2
        simp only [isDue_claim] at hrest
        exact congrArg ({ i with consumed := true } :: ·) hrest
    · rw [if_pos (by simp [hdue]), List.map_cons, if_neg hdue]
      exact congrArg (i :: ·) (ih t)

/-- A scan of notes is a pass over their events. -/
theorem passNotes_eq (t : Tracker R) (now : R) (notes : List (Nat × Note R)) :
    (t.passNotes now notes).1 = (t.pass now (notes.map Note.event)).1 ∧
      (t.passNotes now notes).2.map Note.event = (t.pass now (notes.map Note.event)).2 := by
  induction notes generalizing t with
  | nil => exact ⟨rfl, rfl⟩
  | cons note notes ih =>
    obtain ⟨track, note⟩ := note
    unfold passNotes
    rw [List.map_cons, pass]
    by_cases hdue : t.isDue note.time now = true
    · have hdue' : t.isDue (Note.event (track, note)).2 now = true := hdue
      obtain ⟨htracker, hfired⟩ := ih (t.claim (note.id track) note.time).2
      rw [if_pos hdue, if_pos hdue']
      refine ⟨htracker, ?_⟩
      simp only [apply_ite (List.map Note.event), List.map_cons, hfired]
      rfl
    · have hdue' : ¬t.isDue (Note.event (track, note)).2 now = true := hdue
      rw [if_neg hdue, if_neg hdue']
      exact ih t

/-! ## What a pass reports -/

/-- What is reported was due and not remembered. -/
theorem mem_pass {t : Tracker R} {now : R} {events : List (String × R)} {e : String × R}
    (h : e ∈ (t.pass now events).2) :
    e ∈ events ∧ t.isDue e.2 now = true ∧ t.isConsumed e.1 = false := by
  induction events generalizing t with
  | nil => cases h
  | cons d events ih =>
    unfold pass at h
    by_cases hdue : t.isDue d.2 now = true
    · rw [if_pos hdue] at h
      cases hknown : t.isConsumed d.1 with
      | true =>
        rw [claim_of_isConsumed hknown] at h
        obtain ⟨hmem, hrest⟩ := ih h
        exact ⟨List.mem_cons_of_mem d hmem, hrest⟩
      | false =>
        rw [claim_of_not_isConsumed hknown] at h
        rcases List.mem_cons.1 h with rfl | h
        · exact ⟨List.mem_cons_self, hdue, hknown⟩
        · obtain ⟨hmem, hdue', hunknown⟩ := ih h
          simp only [isConsumed, List.any_cons, Bool.or_eq_false_iff] at hunknown
          exact ⟨List.mem_cons_of_mem d hmem, hdue', hunknown.2⟩
    · rw [if_neg hdue] at h
      obtain ⟨hmem, hrest⟩ := ih h
      exact ⟨List.mem_cons_of_mem d hmem, hrest⟩

/-- A pass remembers what it reports, and forgets nothing. -/
theorem tracker_pass (t : Tracker R) (now : R) (events : List (String × R)) :
    (t.pass now events).1 =
      { t with consumed := (t.pass now events).2.reverse ++ t.consumed } := by
  induction events generalizing t with
  | nil => rfl
  | cons d events ih =>
    unfold pass
    by_cases hdue : t.isDue d.2 now = true
    · simp only [if_pos hdue]
      cases hknown : t.isConsumed d.1 with
      | true =>
        simp only [claim_of_isConsumed hknown]
        exact ih t
      | false =>
        simp only [claim_of_not_isConsumed hknown]
        rw [ih]
        simp
    · simp only [if_neg hdue]
      exact ih t

/-- No id is reported twice by a pass. -/
theorem nodup_pass (t : Tracker R) (now : R) (events : List (String × R)) :
    ((t.pass now events).2.map Prod.fst).Nodup := by
  induction events generalizing t with
  | nil => exact List.nodup_nil
  | cons d events ih =>
    unfold pass
    by_cases hdue : t.isDue d.2 now = true
    · simp only [if_pos hdue]
      cases hknown : t.isConsumed d.1 with
      | true =>
        simp only [claim_of_isConsumed hknown]
        exact ih t
      | false =>
        simp only [claim_of_not_isConsumed hknown]
        refine List.nodup_cons.2 ⟨?_, ih _⟩
        intro hmem
        obtain ⟨e, he, hid⟩ := List.mem_map.1 hmem
        have hunknown := (mem_pass he).2.2
        simp [isConsumed, hid] at hunknown
    · simp only [if_neg hdue]
      exact ih t

/-- After a pass every due id is remembered. -/
theorem isConsumed_of_isDue {t : Tracker R} {now : R} {events : List (String × R)} {e : String × R}
    (h : e ∈ events) (hdue : t.isDue e.2 now = true) :
    (t.pass now events).1.isConsumed e.1 = true := by
  induction events generalizing t with
  | nil => cases h
  | cons d events ih =>
    -- whatever is remembered at some point of the pass is remembered at its end
    have hkeep : ∀ s : Tracker R, ∀ es, s.isConsumed e.1 = true →
        (s.pass now es).1.isConsumed e.1 = true := by
      intro s es hs
      obtain ⟨time, htime⟩ := isConsumed_iff.1 hs
      rw [tracker_pass]
      exact isConsumed_iff.2 ⟨time, List.mem_append_right _ htime⟩
    unfold pass
    rcases List.mem_cons.1 h with rfl | h
    · simp only [if_pos hdue]
      apply hkeep
      cases hknown : t.isConsumed e.1 with
      | true =>
        rw [claim_of_isConsumed hknown]
        exact hknown
      | false =>
        rw [claim_of_not_isConsumed hknown]
        exact isConsumed_iff.2 ⟨e.2, List.mem_cons_self⟩
    · by_cases hd : t.isDue d.2 now = true
      · simp only [if_pos hd]
        exact ih h (by rw [isDue_claim]; exact hdue)
      · simp only [if_neg hd]
        exact ih h hdue

/-! ## Pruning -/

/-- How a tracker is set. -/
def settings (t : Tracker R) : TrackerOptions R := ⟨t.lookback, t.retention⟩

theorem settings_pass (t : Tracker R) (now : R) (events : List (String × R)) :
    (t.pass now events).1.settings = t.settings := by
  rw [tracker_pass]
  rfl

theorem settings_prune (t : Tracker R) (now : R) : (t.prune now).settings = t.settings := rfl

theorem settings_tidy (t : Tracker R) (now : R) : (t.tidy now).settings = t.settings := by
  unfold tidy
  split <;> rfl

/-- Pruning forgets just what lies before the retention. -/
theorem mem_prune {t : Tracker R} {now : R} {e : String × R} :
    e ∈ (t.prune now).consumed ↔ e ∈ t.consumed ∧ now - t.retention ≤ e.2 := by
  simp [prune]

theorem mem_of_mem_tidy {t : Tracker R} {now : R} {e : String × R} (h : e ∈ (t.tidy now).consumed) :
    e ∈ t.consumed := by
  unfold tidy at h
  split at h
  · exact (mem_prune.1 h).1
  · exact h

theorem tidy_pass (t : Tracker R) (now : R) (events : List (String × R)) :
    (t.pass now events).1.tidy now = if t.shouldPrune now then (t.pass now events).1.prune now
      else (t.pass now events).1 := by
  -- a pass does not change when the last pruning was
  have hshould : (t.pass now events).1.shouldPrune now = t.shouldPrune now := by
    rw [tracker_pass]
    rfl
  rw [tidy, hshould]

end Tracker

end RhythmTiles
