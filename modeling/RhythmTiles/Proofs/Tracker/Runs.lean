import Mathlib.Data.List.Induction
import Mathlib.Data.List.Nodup
import Mathlib.Tactic.Linarith
import RhythmTiles.Proofs.Tracker.Pass

/-!
# Runs of a tracker

A run is a row of calls: scans of indicators, scans of notes, prunings, each at a clock time. A call
remembers what was remembered and what it returns, without what it prunes (`Call.mem_run_iff`). While
the clock does not go back no event is returned twice (`once_of_clock`), for what pruning forgets can
no longer be due.
-/

namespace RhythmTiles

inductive Call (R : Type) where
  | indicators (list : List (Indicator R)) (now : R)
  | notes (timeline : Timeline R) (now : R)
  | prune (now : R)

namespace Call

variable {R : Type}

def now : Call R → R
  | indicators _ now | notes _ now | prune now => now

variable [Quantity R]

/-- The events that a call is given. -/
def events : Call R → List (String × R)
  | indicators list _ => list.map Indicator.event
  | notes timeline _ => timeline.notes.map Note.event
  | prune _ => []

/-- The events that a call is given and that are not marked as consumed. -/
def fresh : Call R → List (String × R)
  | indicators list _ => Tracker.freshEvents list
  | notes timeline _ => timeline.notes.map Note.event
  | prune _ => []

/-- The call is given an event of the id that is due. -/
def Finds (lookback : R) (call : Call R) (id : String) : Prop :=
  ∃ time, (id, time) ∈ call.events ∧ call.now - lookback < time ∧ time ≤ call.now

/-- The tracker after a call, and the events that the call returns. -/
def run (t : Tracker R) : Call R → Tracker R × List (String × R)
  | indicators list now =>
    ((t.scanIndicators list now).tracker, (t.pass now (Tracker.freshEvents list)).2)
  | notes timeline now =>
    ((t.scanNotes timeline now).1, (t.scanNotes timeline now).2.map Note.event)
  | prune now => (t.prune now, [])

/-- Whether the call prunes: a pruning does, and a scan does when it is time to. -/
def prunes (t : Tracker R) : Call R → Bool
  | indicators _ now | notes _ now => t.shouldPrune now
  | prune _ => true

/-! ## One call -/

theorem fresh_subset (call : Call R) : call.fresh ⊆ call.events := by
  cases call with
  | indicators list now =>
    intro e he
    obtain ⟨i, hi, rfl⟩ := List.mem_map.1 he
    exact List.mem_map_of_mem (List.mem_filter.1 hi).1
  | notes timeline now => exact List.Subset.refl _
  | prune now => exact List.Subset.refl _

/-- An event that a call is given is fresh, or its indicator is marked as consumed. -/
theorem mem_fresh_or_marked {call : Call R} {e : String × R} (h : e ∈ call.events) :
    e ∈ call.fresh ∨ ∃ list now i, call = .indicators list now ∧ i ∈ list ∧ i.consumed = true ∧
      i.event = e := by
  cases call with
  | indicators list now =>
    obtain ⟨i, hi, rfl⟩ := List.mem_map.1 h
    cases hconsumed : i.consumed with
    | true => exact Or.inr ⟨list, now, i, rfl, hi, hconsumed, rfl⟩
    | false =>
      exact Or.inl (List.mem_map_of_mem (List.mem_filter.2 ⟨hi, by rw [hconsumed]; rfl⟩))
  | notes timeline now => exact Or.inl h
  | prune now => exact Or.inl h

/-- What a call returns is what a pass over its fresh events reports. -/
theorem returned_eq (t : Tracker R) (call : Call R) :
    (call.run t).2 = (t.pass call.now call.fresh).2 := by
  cases call with
  | indicators list now => rfl
  | notes timeline now => exact (t.passNotes_eq now timeline.notes).2
  | prune now => rfl

/-- **A call is a pass over its events and then, if it prunes, a pruning.** -/
theorem tracker_run (t : Tracker R) (call : Call R) :
    (call.run t).1 = if call.prunes t then (t.pass call.now call.fresh).1.prune call.now
      else (t.pass call.now call.fresh).1 := by
  cases call with
  | indicators list now =>
    exact (congrArg (Tracker.tidy · now) (t.passIndicators_eq now list).1).trans
      (t.tidy_pass now _)
  | notes timeline now =>
    exact (congrArg (Tracker.tidy · now) (t.passNotes_eq now timeline.notes).1).trans
      (t.tidy_pass now _)
  | prune now => rfl

theorem ids_returned (t : Tracker R) (list : List (Indicator R)) (now : R) :
    ((Call.indicators list now).run t).2.map Prod.fst = (t.scanIndicators list now).fired :=
  (t.passIndicators_eq now list).2.symm

theorem settings_run (t : Tracker R) (call : Call R) : (call.run t).1.settings = t.settings := by
  rw [tracker_run]
  split
  · rw [Tracker.settings_prune, Tracker.settings_pass]
  · rw [Tracker.settings_pass]

theorem retention_run (t : Tracker R) (call : Call R) : (call.run t).1.retention = t.retention :=
  congrArg TrackerOptions.retention (call.settings_run t)

theorem mem_pass_iff {t : Tracker R} {call : Call R} {e : String × R} :
    e ∈ (t.pass call.now call.fresh).1.consumed ↔ e ∈ t.consumed ∨ e ∈ (call.run t).2 := by
  rw [Tracker.tracker_pass, returned_eq, List.mem_append, List.mem_reverse, or_comm]

/-- **A call remembers what was remembered and what it returns**, without what it prunes. -/
theorem mem_run_iff {t : Tracker R} {call : Call R} {e : String × R} :
    e ∈ (call.run t).1.consumed ↔ (e ∈ t.consumed ∨ e ∈ (call.run t).2) ∧
      (call.prunes t = true → call.now - t.retention ≤ e.2) := by
  have hretention : (t.pass call.now call.fresh).1.retention = t.retention :=
    congrArg TrackerOptions.retention (t.settings_pass call.now call.fresh)
  rw [tracker_run, ← mem_pass_iff]
  by_cases hprunes : call.prunes t = true
  · simp [hprunes, Tracker.mem_prune, hretention]
  · simp [hprunes]

/-- What a call returns it was given, and is due and was not remembered. -/
theorem mem_returned {t : Tracker R} {call : Call R} {e : String × R} (h : e ∈ (call.run t).2) :
    e ∈ call.events ∧ call.now - t.lookback < e.2 ∧ e.2 ≤ call.now ∧
      t.isConsumed e.1 = false := by
  rw [returned_eq] at h
  obtain ⟨hfresh, hdue, hunknown⟩ := Tracker.mem_pass h
  simp only [Tracker.isDue, Bool.and_eq_true, decide_eq_true_eq] at hdue
  exact ⟨call.fresh_subset hfresh, hdue.1, hdue.2, hunknown⟩

theorem nodup_returned (t : Tracker R) (call : Call R) : (call.run t).2.Nodup := by
  rw [returned_eq]
  exact List.Nodup.of_map Prod.fst (t.nodup_pass call.now call.fresh)

/-- An id that is due is returned, or was remembered. -/
theorem returned_of_due {t : Tracker R} {call : Call R} {e : String × R} (h : e ∈ call.fresh)
    (hstart : call.now - t.lookback < e.2) (hstop : e.2 ≤ call.now) :
    e.1 ∈ (call.run t).2.map Prod.fst ∨ t.isConsumed e.1 = true := by
  have hdue : t.isDue e.2 call.now = true := by simp [Tracker.isDue, hstart, hstop]
  obtain ⟨time, htime⟩ := Tracker.isConsumed_iff.1 (Tracker.isConsumed_of_isDue h hdue)
  rw [Tracker.tracker_pass] at htime
  rcases List.mem_append.1 htime with htime | htime
  · rw [returned_eq]
    exact Or.inl (List.mem_map.2 ⟨_, List.mem_reverse.1 htime, rfl⟩)
  · exact Or.inr (Tracker.isConsumed_iff.2 ⟨time, htime⟩)

end Call

/-! ## Runs -/

namespace Tracker

section

variable {R : Type} [Quantity R]

def after (t : Tracker R) (calls : List (Call R)) : Tracker R :=
  calls.foldl (fun t call => (call.run t).1) t

/-- What each call of a run returns. -/
def returned (t : Tracker R) : List (Call R) → List (List (String × R))
  | [] => []
  | call :: calls => (call.run t).2 :: returned (call.run t).1 calls

theorem after_append_singleton (t : Tracker R) (calls : List (Call R)) (call : Call R) :
    t.after (calls ++ [call]) = (call.run (t.after calls)).1 := by
  simp [after]

theorem returned_append_singleton (t : Tracker R) (calls : List (Call R)) (call : Call R) :
    t.returned (calls ++ [call]) = t.returned calls ++ [(call.run (t.after calls)).2] := by
  induction calls generalizing t with
  | nil => rfl
  | cons c calls ih => exact congrArg ((c.run t).2 :: ·) (ih (c.run t).1)

/-- Calls leave a tracker as it is set. -/
theorem settings_after (t : Tracker R) (calls : List (Call R)) :
    (t.after calls).settings = t.settings := by
  induction calls generalizing t with
  | nil => rfl
  | cons call calls ih => exact (ih (call.run t).1).trans (call.settings_run t)

theorem lookback_after (t : Tracker R) (calls : List (Call R)) :
    (t.after calls).lookback = t.lookback :=
  congrArg TrackerOptions.lookback (settings_after t calls)

theorem retention_after (t : Tracker R) (calls : List (Call R)) :
    (t.after calls).retention = t.retention :=
  congrArg TrackerOptions.retention (settings_after t calls)

/-- A fresh tracker remembers only what its calls return. -/
theorem mem_returned_of_mem_after (options : TrackerOptions R) (calls : List (Call R))
    {e : String × R} (h : e ∈ ((new options).after calls).consumed) :
    e ∈ ((new options).returned calls).flatten := by
  induction calls using List.reverseRecOn with
  | nil => cases h
  | append_singleton calls call ih =>
    rw [after_append_singleton] at h
    rw [returned_append_singleton, List.flatten_append, List.flatten_singleton]
    rcases (Call.mem_run_iff.1 h).1 with h | h
    · exact List.mem_append_left _ (ih h)
    · exact List.mem_append_right _ h

end

/-! ## No event twice -/

theorem le_atLeast (low x : Rat) : low ≤ Quantity.atLeast low x := by
  unfold Quantity.atLeast
  split
  · rename_i h
    exact le_of_lt h
  · exact le_refl _

/-- Ids are kept at least as long as events are due. -/
theorem lookback_le_retention (options : TrackerOptions Rat) :
    (new options).lookback ≤ (new options).retention := le_atLeast _ _

/-- Nothing has been returned twice, and what has been returned is remembered, or lies before the
retention of some call. -/
structure Once (options : TrackerOptions Rat) (calls : List (Call Rat)) : Prop where
  nodup : ((new options).returned calls).flatten.Nodup
  kept : ∀ e ∈ ((new options).returned calls).flatten, e ∈ ((new options).after calls).consumed ∨
    ∃ call ∈ calls, e.2 < call.now - (new options).retention

/-- An event that was returned before the clock is not returned again: it is remembered, or no
longer due. -/
theorem Once.not_mem {options : TrackerOptions Rat} {calls : List (Call Rat)} {call : Call Rat}
    (h : Once options calls) (hclock : ∀ earlier ∈ calls, earlier.now ≤ call.now)
    {e : String × Rat} (he : e ∈ (call.run ((new options).after calls)).2) :
    e ∉ ((new options).returned calls).flatten := by
  intro hbefore
  obtain ⟨-, hdue, -, hunknown⟩ := Call.mem_returned he
  rw [lookback_after] at hdue
  rcases h.kept e hbefore with hknown | ⟨earlier, hearlier, hold⟩
  · have hconsumed := isConsumed_iff.2 ⟨e.2, hknown⟩
    rw [hunknown] at hconsumed
    cases hconsumed
  · have hle := lookback_le_retention options
    have hnow := hclock earlier hearlier
    linarith

theorem Once.append_singleton {options : TrackerOptions Rat} {calls : List (Call Rat)}
    {call : Call Rat} (h : Once options calls)
    (hclock : ∀ earlier ∈ calls, earlier.now ≤ call.now) : Once options (calls ++ [call]) := by
  constructor
  · rw [returned_append_singleton, List.flatten_append, List.flatten_singleton]
    refine List.Nodup.append h.nodup (Call.nodup_returned _ call) ?_
    exact fun e hbefore he => h.not_mem hclock he hbefore
  · intro e he
    rw [returned_append_singleton, List.flatten_append, List.flatten_singleton,
      List.mem_append] at he
    rw [after_append_singleton]
    by_cases hlate : call.now - (new options).retention ≤ e.2
    · have hretention : call.now - ((new options).after calls).retention ≤ e.2 := by
        rw [retention_after]
        exact hlate
      rcases he with he | he
      · rcases h.kept e he with hmem | ⟨earlier, hearlier, hold⟩
        · exact Or.inl (Call.mem_run_iff.2 ⟨Or.inl hmem, fun _ => hretention⟩)
        · exact Or.inr ⟨earlier, List.mem_append_left _ hearlier, hold⟩
      · exact Or.inl (Call.mem_run_iff.2 ⟨Or.inr he, fun _ => hretention⟩)
    · exact Or.inr ⟨call, List.mem_append_right _ List.mem_cons_self, not_le.1 hlate⟩

/-- **While the clock does not go back no event is returned twice.** -/
theorem once_of_clock (options : TrackerOptions Rat) {calls : List (Call Rat)}
    (hclock : calls.Pairwise fun earlier later => earlier.now ≤ later.now) :
    Once options calls := by
  induction calls using List.reverseRecOn with
  | nil => exact ⟨List.nodup_nil, by simp [returned]⟩
  | append_singleton calls call ih =>
    obtain ⟨hbefore, -, hlast⟩ := List.pairwise_append.1 hclock
    exact (ih hbefore).append_singleton fun earlier hearlier =>
      hlast earlier hearlier call List.mem_cons_self

end Tracker

end RhythmTiles
