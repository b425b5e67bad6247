import Mathlib.Data.List.Chain
import RhythmTiles.Proofs.Tracker.Runs

/-!
# How long a tracker remembers

A scan prunes only when half the retention has passed since the last pruning (`Call.prunes`), so
between prunings ids wait longer than the retention. They do not wait long: what is remembered is at most
a retention older than the last pruning (`Tracker.Recent`), for an event that is claimed later is due, and
the lookback is within the retention. Every call keeps that (`Tracker.Recent.run`). Main theorem:
`Tracker.remembers_recent`.
-/

namespace RhythmTiles

namespace Call

section

variable {R : Type}

/-- Whether the call looks for events. -/
def isScan : Call R → Bool
  | indicators _ _ | notes _ _ => true
  | prune _ => false

variable [Quantity R]

theorem prunes_eq (t : Tracker R) (call : Call R) :
    call.prunes t = (!call.isScan || t.shouldPrune call.now) := by
  cases call <;> rfl

theorem lastPrune_run (t : Tracker R) (call : Call R) :
    (call.run t).1.lastPrune = if call.prunes t then some call.now else t.lastPrune := by
  rw [tracker_run]
  split
  · rfl
  · rw [Tracker.tracker_pass]

end

end Call

namespace Tracker

section

variable {R : Type} [Quantity R]

/-- A move of playback: it calls its tracker, or starts anew and resets it. -/
inductive Move (R : Type) where
  | call (call : Call R)
  | reset

def Move.run (t : Tracker R) : Move R → Tracker R
  | call c => (c.run t).1
  | reset => t.reset

def play (t : Tracker R) (moves : List (Move R)) : Tracker R := moves.foldl Move.run t

theorem play_append_singleton (t : Tracker R) (moves : List (Move R)) (move : Move R) :
    t.play (moves ++ [move]) = move.run (t.play moves) := by
  simp [play]

theorem play_append_calls (t : Tracker R) (moves : List (Move R)) (calls : List (Call R)) :
    t.play (moves ++ calls.map .call) = (t.play moves).after calls := by
  rw [play, List.foldl_append, List.foldl_map]
  rfl

/-- Moves leave a tracker as it is set. -/
theorem settings_play (t : Tracker R) (moves : List (Move R)) :
    (t.play moves).settings = t.settings := by
  induction moves using List.reverseRecOn with
  | nil => rfl
  | append_singleton moves move ih =>
    rw [play_append_singleton, ← ih]
    cases move with
    | call c => exact c.settings_run _
    | reset => rfl

theorem lookback_play (t : Tracker R) (moves : List (Move R)) :
    (t.play moves).lookback = t.lookback :=
  congrArg TrackerOptions.lookback (settings_play t moves)

theorem retention_play (t : Tracker R) (moves : List (Move R)) :
    (t.play moves).retention = t.retention :=
  congrArg TrackerOptions.retention (settings_play t moves)

end

/-- The clock does not go back from one move to the next, unless playback starts anew. -/
def Move.Precedes : Move Rat → Move Rat → Prop
  | call earlier, call later => earlier.now ≤ later.now
  | _, _ => True

/-! ## When a scan prunes -/

theorem shouldPrune_iff {t : Tracker Rat} {now : Rat} :
    t.shouldPrune now = true ↔ ∀ last, t.lastPrune = some last → t.retention / 2 ≤ now - last := by
  unfold shouldPrune
  cases t.lastPrune with
  | none => simp
  | some last => simp [Quantity.ofNat]

/-- A call that does not prune comes soon after a pruning. -/
theorem exists_lastPrune {t : Tracker Rat} {call : Call Rat} (h : ¬call.prunes t = true) :
    ∃ last, t.lastPrune = some last ∧ call.now - last < t.retention / 2 := by
  rw [Call.prunes_eq, Bool.or_eq_true, not_or, shouldPrune_iff] at h
  obtain ⟨-, hsoon⟩ := h
  push Not at hsoon
  exact hsoon

/-! ## What is remembered -/

/-- The last pruning is past, and what is remembered is at most a retention older than it. -/
structure Recent (t : Tracker Rat) (clock : Rat) : Prop where
  past : ∀ last, t.lastPrune = some last → last ≤ clock
  kept : ∀ e ∈ t.consumed, ∃ last, t.lastPrune = some last ∧ last - t.retention ≤ e.2

variable {t : Tracker Rat} {clock : Rat} {call : Call Rat}

theorem Recent.mono {clock' : Rat} (h : Recent t clock) (hle : clock ≤ clock') : Recent t clock' :=
  ⟨fun last hlast => (h.past last hlast).trans hle, h.kept⟩

theorem recent_of_forgotten (hprune : t.lastPrune = none) (hconsumed : t.consumed = []) :
    Recent t clock :=
  ⟨by simp [hprune], by simp [hconsumed]⟩

/-- **A call keeps what is remembered recent.** -/
theorem Recent.run (h : Recent t call.now) (hle : t.lookback ≤ t.retention) :
    Recent (call.run t).1 call.now := by
  constructor
  · intro last hlast
    rw [Call.lastPrune_run] at hlast
    split at hlast
    · exact (Option.some.inj hlast).ge
    · exact h.past last hlast
  · intro e he
    obtain ⟨hmem, hlate⟩ := Call.mem_run_iff.1 he
    rw [Call.lastPrune_run, Call.retention_run]
    by_cases hprunes : call.prunes t = true
    · rw [if_pos hprunes]
      exact ⟨call.now, rfl, hlate hprunes⟩
    · rw [if_neg hprunes]
      rcases hmem with hknown | hreturned
      · exact h.kept e hknown
      · -- it is due now, and the last pruning is past
        obtain ⟨last, hlast, -⟩ := exists_lastPrune hprunes
        obtain ⟨-, hdue, -⟩ := Call.mem_returned hreturned
        have hpast := h.past last hlast
        exact ⟨last, hlast, by linarith⟩

/-- After a call nothing is remembered that is older than one and a half retentions. -/
theorem Recent.le_of_mem_run (h : Recent t call.now) (hle : t.lookback ≤ t.retention)
    (hpos : 0 ≤ t.retention) {e : String × Rat} (he : e ∈ (call.run t).1.consumed) :
    call.now - 3 / 2 * t.retention ≤ e.2 := by
  obtain ⟨last, hlast, hkept⟩ := (h.run hle).kept e he
  rw [Call.retention_run] at hkept
  have hnear : call.now - last ≤ t.retention / 2 := by
    rw [Call.lastPrune_run] at hlast
    split at hlast
    · rw [Option.some.inj hlast]
      linarith
    · rename_i hprunes
      obtain ⟨last', hlast', hsoon⟩ := exists_lastPrune hprunes
      rw [hlast] at hlast'
      rw [Option.some.inj hlast']
      exact hsoon.le
  linarith

/-! ## Moves -/

theorem retention_nonneg (options : TrackerOptions Rat) : 0 ≤ (new options).retention := by
  have hlookback : (0 : Rat) ≤ (new options).lookback := by
    simpa [new, Quantity.ofNat] using le_atLeast (Quantity.ofNat 0) options.lookback
  exact hlookback.trans (lookback_le_retention options)

variable {options : TrackerOptions Rat} {moves : List (Move Rat)}

theorem lookback_play_le (options : TrackerOptions Rat) (moves : List (Move Rat)) :
    ((new options).play moves).lookback ≤ ((new options).play moves).retention := by
  rw [lookback_play, retention_play]
  exact lookback_le_retention options

/-- **Moves keep what is remembered recent.** -/
theorem recent_play (hclock : moves.IsChain Move.Precedes)
    (hlast : ∀ call, moves.getLast? = some (.call call) → call.now ≤ clock) :
    Recent ((new options).play moves) clock := by
  induction moves using List.reverseRecOn generalizing clock with
  | nil => exact recent_of_forgotten rfl rfl
  | append_singleton moves move ih =>
    obtain ⟨hbefore, -, hnext⟩ := List.isChain_append.1 hclock
    rw [play_append_singleton]
    cases move with
    | reset => exact recent_of_forgotten rfl rfl
    | call call =>
      have hrecent : Recent ((new options).play moves) call.now :=
        ih hbefore fun earlier hearlier => hnext (.call earlier) hearlier (.call call) rfl
      exact (hrecent.run (lookback_play_le options moves)).mono (hlast call (by simp))

theorem recent_before_call (hclock : (moves ++ [Move.call call]).IsChain Move.Precedes) :
    Recent ((new options).play moves) call.now := by
  obtain ⟨hbefore, -, hnext⟩ := List.isChain_append.1 hclock
  exact recent_play hbefore fun earlier hearlier => hnext (.call earlier) hearlier (.call call) rfl

/-- While calls do not go back behind a clock time at which there was a pruning, the last pruning is
from then or later. -/
theorem exists_lastPrune_after {calls : List (Call Rat)}
    (hprune : ∃ last, t.lastPrune = some last ∧ clock ≤ last)
    (hcalls : ∀ call ∈ calls, clock ≤ call.now) :
    ∃ last, (t.after calls).lastPrune = some last ∧ clock ≤ last := by
  induction calls using List.reverseRecOn with
  | nil => exact hprune
  | append_singleton calls call ih =>
    rw [after_append_singleton, Call.lastPrune_run]
    by_cases hprunes : call.prunes (t.after calls) = true
    · rw [if_pos hprunes]
      exact ⟨call.now, rfl, hcalls call (by simp)⟩
    · rw [if_neg hprunes]
      exact ih fun earlier hearlier => hcalls earlier (List.mem_append_left _ hearlier)

/-- A row of calls does not go back in time. -/
theorem pairwise_of_isChain {calls : List (Call Rat)}
    (h : (calls.map .call).IsChain Move.Precedes) :
    calls.Pairwise fun earlier later => earlier.now ≤ later.now := by
  rw [List.isChain_map] at h
  have htimes : (calls.map Call.now).IsChain (· ≤ ·) := (List.isChain_map Call.now).2 h
  exact List.pairwise_map.1 htimes.pairwise

/-- **A scan that prunes comes half a retention after any pruning before it.** -/
theorem retention_le_of_prunes {earlier later : Call Rat} {between : List (Call Rat)}
    (hclock : (earlier :: (between ++ [later])).Pairwise fun earlier later => earlier.now ≤ later.now)
    (hearlier : earlier.prunes t = true) (hscan : later.isScan = true)
    (hlater : later.prunes (t.after (earlier :: between)) = true) :
    t.retention / 2 ≤ later.now - earlier.now := by
  obtain ⟨hle, -⟩ := List.pairwise_cons.1 hclock
  have hprune : (earlier.run t).1.lastPrune = some earlier.now := by
    rw [Call.lastPrune_run, if_pos hearlier]
  obtain ⟨last, hlast, hlate⟩ := exists_lastPrune_after ⟨_, hprune, le_rfl⟩
    fun call hcall => hle call (List.mem_append_left [later] hcall)
  rw [Call.prunes_eq, hscan, Bool.not_true, Bool.false_or, shouldPrune_iff] at hlater
  have hinterval := hlater last hlast
  rw [retention_after] at hinterval
  linarith

/-- **A tracker remembers what is recent.** While the clock does not go back, unless the tracker is
reset, a call leaves no id behind whose event is older than one and a half retentions, and between two
resets a scan prunes no sooner than half a retention after the last pruning. -/
theorem remembers_recent (options : TrackerOptions Rat) (moves : List (Move Rat))
    (hclock : moves.IsChain Move.Precedes) :
    (∀ (t : Tracker Rat) (call : Call Rat), (call.run t).1 =
      if call.prunes t then (t.pass call.now call.fresh).1.prune call.now
      else (t.pass call.now call.fresh).1) ∧
    (∀ before, ((new options).play before).settings = (new options).settings) ∧
    (∀ before call, before ++ [.call call] <+: moves →
      ∀ e ∈ ((new options).play (before ++ [.call call])).consumed,
        call.now - 3 / 2 * (new options).retention ≤ e.2) ∧
    ∀ before earlier between later,
      before ++ (earlier :: (between ++ [later])).map .call <+: moves →
      earlier.prunes ((new options).play before) = true → later.isScan = true →
      later.prunes ((new options).play (before ++ (earlier :: between).map .call)) = true →
        (new options).retention / 2 ≤ later.now - earlier.now := by
  refine ⟨Call.tracker_run, settings_play _, ?_, ?_⟩
  · rintro before call ⟨rest, rfl⟩ e he
    -- every move before the call has kept what is remembered recent
    have hrecent : Recent ((new options).play before) call.now :=
      recent_before_call hclock.left_of_append
    rw [play_append_singleton] at he
    have hle := hrecent.le_of_mem_run (lookback_play_le options before)
      (by rw [retention_play]; exact retention_nonneg options) he
    rwa [retention_play] at hle
  · rintro before earlier between later ⟨rest, rfl⟩ hearlier hscan hlater
    have hcalls := hclock.left_of_append.right_of_append
    rw [play_append_calls] at hlater
    have hle := retention_le_of_prunes (pairwise_of_isChain hcalls) hearlier hscan hlater
    rwa [retention_play] at hle

/-- After a pruning at one the next scans wait until two, half a retention later. Then playback starts
anew. -/
theorem remembers_recent_restart :
    let options : TrackerOptions Rat := ⟨1 / 4, 2⟩
    let mark : String → Rat → Indicator Rat := fun id time => ⟨id, 1, 0, 0, 0, 0, time, false⟩
    let scan : Rat → Call Rat := fun now => .indicators [mark "a" 0, mark "b" (3 / 2)] now
    let moves : List (Tracker.Move Rat) := [.call (scan 0), .call (.prune 1), .call (scan (3 / 2)),
      .call (scan 2), .reset, .call (scan 0)]
    let tracker : Nat → Tracker Rat := fun n => (new options).play (moves.take n)
    (tracker 3).consumed = [("b", 3 / 2), ("a", 0)] ∧
      (∀ e ∈ (tracker 3).consumed, 3 / 2 - 3 / 2 * (new options).retention ≤ e.2) ∧
      (scan (3 / 2)).prunes (tracker 2) = false ∧
      (scan 2).prunes (tracker 3) = true ∧
      (new options).retention / 2 ≤ 2 - 1 := by
  intro options mark scan moves tracker
  have hclock : moves.IsChain Move.Precedes := by
    simp only [moves, List.isChain_cons_cons, List.isChain_singleton, Move.Precedes, scan, Call.now]
    norm_num
  have hprunes : (scan 2).prunes (tracker 3) = true := by decide +kernel
  obtain ⟨-, -, hkept, hspaced⟩ := remembers_recent options moves hclock
  have hthree : moves.take 3 <+: moves := List.take_prefix 3 moves
  have hfour : moves.take 4 <+: moves := List.take_prefix 4 moves
  refine ⟨by decide +kernel, ?_, by decide +kernel, hprunes, ?_⟩
  · exact hkept (moves.take 2) (scan (3 / 2)) hthree
  · exact hspaced (moves.take 1) (.prune 1) [scan (3 / 2)] (scan 2) hfour rfl rfl hprunes

end Tracker

end RhythmTiles
