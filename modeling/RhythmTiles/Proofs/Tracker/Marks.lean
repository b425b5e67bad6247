import Mathlib.Data.List.Nodup
import RhythmTiles.Proofs.Grid.Marks
import RhythmTiles.Proofs.Tracker.Pass

/-!
# Scanning marks with different ids

A tracker may forget what it has reported, but the marks remember: as long as only consumed marks are
remembered (`Untold`), a scan reports exactly the marks that are due and not consumed
(`fired_scanIndicators`), and leaves only consumed marks remembered (`Untold.scanIndicators`). Clock
times play no part in this.
-/

namespace RhythmTiles.Tracker

variable {R : Type}

/-- Nothing is remembered of a mark that is not consumed. -/
def Untold (t : Tracker R) (indicators : List (Indicator R)) : Prop :=
  ∀ i ∈ indicators, i.consumed = false → t.isConsumed i.id = false

variable {t : Tracker R} {indicators : List (Indicator R)}

/-- Claiming one id leaves marks with other ids untold. -/
theorem Untold.claim (h : Untold t indicators) {id : String} (hid : id ∉ Indicator.ids indicators)
    (time : R) : Untold (t.claim id time).2 indicators := by
  intro i hi hconsumed
  have hne : id ≠ i.id := by
    rintro rfl
    exact hid (List.mem_map_of_mem hi)
  cases hknown : t.isConsumed id with
  | true =>
    rw [claim_of_isConsumed hknown]
    exact h i hi hconsumed
  | false =>
    rw [claim_of_not_isConsumed hknown]
    have hother := h i hi hconsumed
    simpa [isConsumed, hne] using hother

variable [Quantity R]

/-- The settings alone say what is due. -/
theorem isDue_of_settings {t' : Tracker R} (h : t.settings = t'.settings) (time now : R) :
    t.isDue time now = t'.isDue time now := by
  unfold isDue
  rw [(TrackerOptions.mk.inj h).1]

/-- Whether a mark is due and not consumed. -/
def fires (t : Tracker R) (now : R) (i : Indicator R) : Bool := !i.consumed && t.isDue i.time now

theorem fires_eq_true {now : R} {i : Indicator R} :
    t.fires now i = true ↔ i.consumed = false ∧ t.isDue i.time now = true := by
  simp [fires]

theorem fires_claim (id : String) (time now : R) : (t.claim id time).2.fires now = t.fires now := by
  funext i
  unfold fires
  rw [isDue_claim]

/-- The marks that a scan reports: those that are due and not consumed. -/
theorem fired_scanIndicators (h : Untold t indicators) (hids : (Indicator.ids indicators).Nodup)
    (now : R) :
    (t.scanIndicators indicators now).fired =
      Indicator.ids (indicators.filter (t.fires now)) := by
  show (t.passIndicators now indicators).fired = _
  induction indicators generalizing t with
  | nil => rfl
  | cons i indicators ih =>
    obtain ⟨hid, hids⟩ := List.nodup_cons.1 hids
    have hrest : Untold t indicators := fun j hj => h j (List.mem_cons_of_mem i hj)
    unfold passIndicators
    by_cases hfires : t.fires now i = true
    · obtain ⟨hconsumed, hdue⟩ := fires_eq_true.1 hfires
      have hunknown : t.isConsumed i.id = false := h i List.mem_cons_self hconsumed
      have hclaimed := ih (hrest.claim hid i.time) hids
      rw [fires_claim] at hclaimed
      rw [if_neg (by simp [hconsumed, hdue]), List.filter_cons_of_pos hfires]
      simp only [claim_of_not_isConsumed hunknown] at hclaimed ⊢
      exact congrArg (i.id :: ·) hclaimed
    · have hpass : (i.consumed || !t.isDue i.time now) = true := by
        cases hconsumed : i.consumed with
        | true => rfl
        | false => simpa [fires, hconsumed] using hfires
      rw [if_pos hpass, List.filter_cons_of_neg hfires]
      exact ih hrest hids

/-- After a scan, what is remembered is consumed. -/
theorem Untold.scanIndicators (h : Untold t indicators) (hids : (Indicator.ids indicators).Nodup)
    (now : R) :
    Untold (t.scanIndicators indicators now).tracker (t.scanIndicators indicators now).indicators := by
  have hfired := fired_scanIndicators h hids now
  obtain ⟨htracker, hpass⟩ := t.passIndicators_eq now indicators
  show Untold ((t.passIndicators now indicators).tracker.tidy now)
    (t.passIndicators now indicators).indicators
  rw [indicators_passIndicators]
  intro i hi hconsumed
  obtain ⟨j, hj, rfl⟩ := List.mem_map.1 hi
  by_cases hdue : t.isDue j.time now = true
  · rw [if_pos hdue] at hconsumed
    cases hconsumed
  · rw [if_neg hdue] at hconsumed ⊢
    by_contra hknown
    obtain ⟨time, hmem⟩ := isConsumed_iff.1 (Bool.not_eq_false _ ▸ hknown)
    have hmem := mem_of_mem_tidy hmem
    rw [htracker, tracker_pass] at hmem
    rcases List.mem_append.1 hmem with hmem | hmem
    · -- the scan has reported the id, hence of another mark
      have hreported : j.id ∈ (t.scanIndicators indicators now).fired := by
        show j.id ∈ (t.passIndicators now indicators).fired
        rw [hpass]
        exact List.mem_map.2 ⟨_, List.mem_reverse.1 hmem, rfl⟩
      rw [hfired] at hreported
      obtain ⟨k, hk, hid⟩ := List.mem_map.1 hreported
      obtain ⟨hk, hfires⟩ := List.mem_filter.1 hk
      rw [List.inj_on_of_nodup_map hids hk hj hid] at hfires
      exact hdue (fires_eq_true.1 hfires).2
    · have hunknown := h j hj hconsumed
      rw [isConsumed_iff.2 ⟨time, hmem⟩] at hunknown
      cases hunknown

end RhythmTiles.Tracker
