import RhythmTiles.Proofs.Tracker.Runs

/-!
# Which call delivers an event

Scans hand indicators back marked, and a marked indicator is passed over. As long as marks come from
scans alone (`MarkedByScans`), a marked indicator was found before (`found_of_consumed`), so marks hide
nothing that has not been returned: what has been found is what has been returned
(`mem_ids_returned`). Together with `once_of_clock` this says which call returns an id.
-/

namespace RhythmTiles.Tracker

variable {options : TrackerOptions Rat} {calls : List (Call Rat)}

/-- A fresh tracker before call `n` of a run. -/
def before (options : TrackerOptions Rat) (calls : List (Call Rat)) (n : Nat) : Tracker Rat :=
  (new options).after (calls.take n)

/-- Every indicator is given to a scan unmarked, or as an earlier scan of the run has handed it
back. -/
def MarkedByScans (options : TrackerOptions Rat) (calls : List (Call Rat)) : Prop :=
  ∀ n list now, calls[n]? = some (.indicators list now) → ∀ i ∈ list, i.consumed = true →
    ∃ m < n, ∃ list' now', calls[m]? = some (.indicators list' now') ∧
      i ∈ ((before options calls m).scanIndicators list' now').indicators

/-- Events of one id have one time. -/
def TimesAgree (calls : List (Call Rat)) : Prop :=
  ∀ call ∈ calls, ∀ call' ∈ calls, ∀ e ∈ call.events, ∀ e' ∈ call'.events, e.1 = e'.1 → e.2 = e'.2

/-- One of the first `n` calls finds the id due. -/
def FoundBefore (options : TrackerOptions Rat) (calls : List (Call Rat)) (n : Nat) (id : String) :
    Prop :=
  ∃ m < n, ∃ call, calls[m]? = some call ∧ call.Finds (new options).lookback id

theorem FoundBefore.mono {m n : Nat} {id : String} (h : FoundBefore options calls m id)
    (hle : m ≤ n) : FoundBefore options calls n id := by
  obtain ⟨k, hk, hfound⟩ := h
  exact ⟨k, Nat.lt_of_lt_of_le hk hle, hfound⟩

theorem foundBefore_succ {n : Nat} {id : String} :
    FoundBefore options calls (n + 1) id ↔ FoundBefore options calls n id ∨
      ∃ call, calls[n]? = some call ∧ call.Finds (new options).lookback id := by
  constructor
  · rintro ⟨m, hm, call, hcall, hfinds⟩
    rcases Nat.lt_succ_iff_lt_or_eq.1 hm with hm | rfl
    · exact Or.inl ⟨m, hm, call, hcall, hfinds⟩
    · exact Or.inr ⟨call, hcall, hfinds⟩
  · rintro (h | ⟨call, hcall, hfinds⟩)
    · exact h.mono (Nat.le_succ n)
    · exact ⟨n, Nat.lt_succ_self n, call, hcall, hfinds⟩

theorem lookback_before (n : Nat) : (before options calls n).lookback = (new options).lookback :=
  lookback_after _ _

theorem take_succ_of_getElem? {n : Nat} {call : Call Rat} (h : calls[n]? = some call) :
    calls.take (n + 1) = calls.take n ++ [call] := by
  rw [List.take_add_one, h]
  rfl

theorem take_succ_of_none {n : Nat} (h : calls[n]? = none) :
    calls.take (n + 1) = calls.take n := by
  rw [List.take_add_one, h, Option.toList_none, List.append_nil]

theorem returned_take_succ {n : Nat} {call : Call Rat} (h : calls[n]? = some call) :
    ((new options).returned (calls.take (n + 1))).flatten =
      ((new options).returned (calls.take n)).flatten ++ (call.run (before options calls n)).2 := by
  rw [take_succ_of_getElem? h, returned_append_singleton, List.flatten_append,
    List.flatten_singleton]
  rfl

/-! ## Marks -/

/-- A marked indicator was found due by an earlier scan. -/
theorem found_of_consumed (hmarked : MarkedByScans options calls) {n : Nat}
    {list : List (Indicator Rat)} {now : Rat} (hcall : calls[n]? = some (.indicators list now))
    {i : Indicator Rat} (hi : i ∈ list) (hconsumed : i.consumed = true) :
    FoundBefore options calls n i.id := by
  induction n using Nat.strong_induction_on generalizing list now i with
  | _ n ih =>
    obtain ⟨m, hm, list', now', hcall', hback⟩ := hmarked n list now hcall i hi hconsumed
    have hback : i ∈ ((before options calls m).passIndicators now' list').indicators := hback
    rw [indicators_passIndicators] at hback
    obtain ⟨j, hj, rfl⟩ := List.mem_map.1 hback
    have hevent : (j.id, j.time) ∈ (Call.indicators list' now').events :=
      List.mem_map.2 ⟨j, hj, rfl⟩
    by_cases hdue : (before options calls m).isDue j.time now' = true
    · -- it was marked by that scan
      rw [if_pos hdue]
      simp only [isDue, lookback_before, Bool.and_eq_true, decide_eq_true_eq] at hdue
      exact ⟨m, hm, _, hcall', j.time, hevent, hdue⟩
    · -- it was marked before that scan
      rw [if_neg hdue] at hconsumed ⊢
      exact (ih m hm hcall' hj hconsumed).mono (Nat.le_of_lt hm)

/-! ## Found and returned -/

/-- What a call returns it finds. -/
theorem finds_of_returned {n : Nat} {call : Call Rat} {e : String × Rat}
    (h : e ∈ (call.run (before options calls n)).2) : call.Finds (new options).lookback e.1 := by
  obtain ⟨hevent, hstart, hstop, -⟩ := Call.mem_returned h
  rw [lookback_before] at hstart
  exact ⟨e.2, hevent, hstart, hstop⟩

/-- What a call finds has been returned before or was found before, or the call returns it. -/
theorem returned_of_finds (hmarked : MarkedByScans options calls) {n : Nat} {call : Call Rat}
    (hcall : calls[n]? = some call) {id : String} (h : call.Finds (new options).lookback id) :
    FoundBefore options calls n id ∨
      (∃ time, (id, time) ∈ ((new options).returned (calls.take n)).flatten) ∨
      ∃ time, (id, time) ∈ (call.run (before options calls n)).2 := by
  obtain ⟨time, hevent, hstart, hstop⟩ := h
  have hstart : call.now - (before options calls n).lookback < time := by
    rw [lookback_before]
    exact hstart
  rcases Call.mem_fresh_or_marked hevent with hfresh | ⟨list, now, i, rfl, hi, hmark, hid⟩
  · rcases Call.returned_of_due hfresh hstart hstop with h | h
    · obtain ⟨⟨_, time'⟩, hmem, rfl⟩ := List.mem_map.1 h
      exact Or.inr (Or.inr ⟨time', hmem⟩)
    · obtain ⟨time', hknown⟩ := isConsumed_iff.1 h
      exact Or.inr (Or.inl ⟨time', mem_returned_of_mem_after options _ hknown⟩)
  · -- the indicator is marked, so it was found before
    obtain ⟨rfl, -⟩ := Prod.mk.inj hid
    exact Or.inl (found_of_consumed hmarked hcall hi hmark)

/-- **What has been found due is what has been returned.** -/
theorem mem_ids_returned (hmarked : MarkedByScans options calls) (n : Nat) (id : String) :
    (∃ time, (id, time) ∈ ((new options).returned (calls.take n)).flatten) ↔
      FoundBefore options calls n id := by
  induction n with
  | zero => simp [returned, FoundBefore]
  | succ n ih =>
    cases hcall : calls[n]? with
    | none =>
      rw [take_succ_of_none hcall, ih, foundBefore_succ]
      simp [hcall]
    | some call =>
      rw [returned_take_succ hcall, foundBefore_succ, ← ih]
      constructor
      · rintro ⟨time, h⟩
        rcases List.mem_append.1 h with h | h
        · exact Or.inl ⟨time, h⟩
        · exact Or.inr ⟨call, hcall, finds_of_returned h⟩
      · rintro (⟨time, h⟩ | ⟨call', hcall', hfinds⟩)
        · exact ⟨time, List.mem_append_left _ h⟩
        · cases hcall.symm.trans hcall'
          rcases returned_of_finds hmarked hcall hfinds with hfound | ⟨time, h⟩ | ⟨time, h⟩
          · obtain ⟨time, h⟩ := ih.2 hfound
            exact ⟨time, List.mem_append_left _ h⟩
          · exact ⟨time, List.mem_append_left _ h⟩
          · exact ⟨time, List.mem_append_right _ h⟩

/-- What the first calls return they were given. -/
theorem exists_event_of_mem_returned {n : Nat} {e : String × Rat}
    (h : e ∈ ((new options).returned (calls.take n)).flatten) :
    ∃ call ∈ calls, e ∈ call.events := by
  induction n with
  | zero => cases h
  | succ n ih =>
    cases hcall : calls[n]? with
    | none =>
      rw [take_succ_of_none hcall] at h
      exact ih h
    | some call =>
      rw [returned_take_succ hcall] at h
      rcases List.mem_append.1 h with h | h
      · exact ih h
      · exact ⟨call, List.mem_of_getElem? hcall, (Call.mem_returned h).1⟩

/-- **Every event is returned once**, and every id by the first call that finds it due. -/
theorem returned_once (options : TrackerOptions Rat) (calls : List (Call Rat))
    (hclock : calls.Pairwise fun earlier later => earlier.now ≤ later.now) :
    (∀ (t : Tracker Rat) list now, ((Call.indicators list now).run t).2.map Prod.fst =
      (t.scanIndicators list now).fired) ∧
    ((new options).returned calls).flatten.Nodup ∧
    (TimesAgree calls → MarkedByScans options calls → ∀ n call, calls[n]? = some call → ∀ id,
      (∃ time, (id, time) ∈ (call.run (before options calls n)).2) ↔
        call.Finds (new options).lookback id ∧ ¬FoundBefore options calls n id) := by
  refine ⟨Call.ids_returned, (once_of_clock options hclock).nodup, ?_⟩
  intro htimes hmarked n call hcall id
  have honce : ((new options).returned (calls.take (n + 1))).flatten.Nodup :=
    (once_of_clock options (hclock.sublist (List.take_sublist _ _))).nodup
  rw [returned_take_succ hcall] at honce
  constructor
  · rintro ⟨time, h⟩
    refine ⟨finds_of_returned h, fun hfound => ?_⟩
    -- an id that was found before was returned with the one time it has, and would be returned twice
    have hevent := (Call.mem_returned h).1
    obtain ⟨time', hreturned⟩ := (mem_ids_returned hmarked n id).2 hfound
    obtain ⟨earlier, hearlier, hevent'⟩ := exists_event_of_mem_returned hreturned
    have htime : time' = time :=
      htimes earlier hearlier call (List.mem_of_getElem? hcall) _ hevent' _ hevent rfl
    rw [htime] at hreturned
    exact List.disjoint_of_nodup_append honce hreturned h
  · rintro ⟨hfinds, hnew⟩
    have hfound : FoundBefore options calls (n + 1) id :=
      foundBefore_succ.2 (Or.inr ⟨call, hcall, hfinds⟩)
    obtain ⟨time, hreturned⟩ := (mem_ids_returned hmarked (n + 1) id).2 hfound
    rw [returned_take_succ hcall] at hreturned
    rcases List.mem_append.1 hreturned with h | h
    · exact absurd ((mem_ids_returned hmarked n id).1 ⟨time, h⟩) hnew
    · exact ⟨time, h⟩

/-- An indicator that has been returned is not returned again when it comes back marked, nor when a
fresh copy of it comes after a pruning. -/
theorem returned_once_fresh_copy :
    let mark : String → Rat → Bool → Indicator Rat := fun id time consumed =>
      ⟨id, 1, 0, 0, 0, 0, time, consumed⟩
    let calls : List (Call Rat) :=
      [.indicators [mark "a" 1 false] 1, .indicators [mark "a" 1 true] 1, .prune 3,
        .indicators [mark "a" 1 false, mark "b" 3 false] 3]
    ((new ⟨1 / 4, 1⟩).returned calls).flatten.Nodup ∧
      (∃ time, ("a", time) ∈ (calls[0].run (before ⟨1 / 4, 1⟩ calls 0)).2) ∧
      (¬∃ time, ("a", time) ∈ (calls[3].run (before ⟨1 / 4, 1⟩ calls 3)).2) ∧
      ∃ time, ("b", time) ∈ (calls[3].run (before ⟨1 / 4, 1⟩ calls 3)).2 := by
  intro mark calls
  have hclock : calls.Pairwise fun earlier later => earlier.now ≤ later.now := by
    simp only [calls, Call.now]
    decide
  have htimes : TimesAgree calls := by
    unfold TimesAgree
    decide
  have hmarked : MarkedByScans ⟨1 / 4, 1⟩ calls := by
    -- only the second call is given a marked indicator, and the first one has handed it back
    intro n list now hcall i hi hconsumed
    match n with
    | 0 =>
      cases hcall
      rw [List.mem_singleton.1 hi] at hconsumed
      cases hconsumed
    | 1 =>
      cases hcall
      rw [List.mem_singleton.1 hi]
      refine ⟨0, Nat.one_pos, [mark "a" 1 false], 1, rfl, ?_⟩
      have hdue : (before ⟨1 / 4, 1⟩ calls 0).isDue 1 1 = true := by decide +kernel
      show _ ∈ ((before ⟨1 / 4, 1⟩ calls 0).passIndicators 1 [mark "a" 1 false]).indicators
      rw [indicators_passIndicators]
      exact List.mem_map.2 ⟨mark "a" 1 false, List.mem_singleton.2 rfl, if_pos hdue⟩
    | 2 => cases hcall
    | 3 =>
      cases hcall
      have hfresh : ∀ j ∈ [mark "a" 1 false, mark "b" 3 false], j.consumed = false := by simp [mark]
      rw [hfresh i hi] at hconsumed
      cases hconsumed
    | n + 4 => cases hcall
  have hfound : (calls[0]).Finds (new ⟨1 / 4, 1⟩).lookback "a" :=
    ⟨1, by decide, by decide +kernel, by decide⟩
  have hlate : (calls[3]).Finds (new ⟨1 / 4, 1⟩).lookback "b" :=
    ⟨3, by decide, by decide +kernel, by decide⟩
  have hnone : ¬FoundBefore ⟨1 / 4, 1⟩ calls 3 "b" := by
    have hids : ∀ call ∈ calls.take 3, ∀ e ∈ call.events, e.1 ≠ "b" := by decide
    rintro ⟨m, hm, call, hcall, time, hevent, -⟩
    exact hids call (List.mem_of_getElem? ((List.getElem?_take_of_lt hm).trans hcall)) _ hevent rfl
  obtain ⟨-, hnodup, hfirst⟩ := returned_once ⟨1 / 4, 1⟩ calls hclock
  have honce := hfirst htimes hmarked
  refine ⟨hnodup, (honce 0 _ rfl "a").2 ⟨hfound, ?_⟩, ?_, (honce 3 _ rfl "b").2 ⟨hlate, hnone⟩⟩
  · rintro ⟨m, hm, -⟩
    exact Nat.not_lt_zero m hm
  · intro hagain
    exact ((honce 3 _ rfl "a").1 hagain).2 ⟨0, by decide, _, rfl, hfound⟩

end RhythmTiles.Tracker
