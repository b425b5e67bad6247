import Mathlib
import RhythmTiles.Timeline.Tempo

/-!
# The time of a tick

A change of tempo holds from its tick up to the next one, so a list of changes puts one tempo in force
at each tick (`inForce?`), and a tick takes the time of its tempo (`tickSeconds`). In exact numbers the
segments before a tick take as long as all their ticks together: main theorem `secondsAt_eq_sum`. What
leaves the tempo in force as it was leaves all times as they were (`secondsAt_congr`).
-/

namespace RhythmTiles.TempoChange

/-- The changes are listed by their ticks. -/
def Sorted {R : Type} (changes : List (TempoChange R)) : Prop :=
  changes.Pairwise fun earlier later => earlier.ticks ≤ later.ticks

/-- The tempo in force at a tick: that of the last change which is not behind it. -/
def inForce? {R : Type} (changes : List (TempoChange R)) (tick : Nat) : Option R :=
  ((changes.filter fun change => change.ticks ≤ tick).getLast?).map TempoChange.bpm

/-- The seconds that one tick takes; none before the first change. -/
def tickSeconds (perQuarter : Nat) (changes : List (TempoChange Rat)) (tick : Nat) : Rat :=
  ((inForce? changes tick).map fun bpm : Rat => 60 / (perQuarter * bpm)).getD 0

/-! ## The tempo in force -/

section

variable {R : Type}

theorem inForce?_nil (tick : Nat) : inForce? ([] : List (TempoChange R)) tick = none := rfl

/-- Later changes come first. -/
theorem inForce?_append (before after : List (TempoChange R)) (tick : Nat) :
    inForce? (before ++ after) tick = (inForce? after tick).or (inForce? before tick) := by
  unfold inForce?
  rw [List.filter_append, List.getLast?_append]
  cases (after.filter fun change => change.ticks ≤ tick).getLast? with
  | none => rfl
  | some change => rfl

theorem inForce?_singleton (change : TempoChange R) (tick : Nat) :
    inForce? [change] tick = if change.ticks ≤ tick then some change.bpm else none := by
  by_cases h : change.ticks ≤ tick <;> simp [inForce?, h]

theorem inForce?_cons (change : TempoChange R) (changes : List (TempoChange R)) (tick : Nat) :
    inForce? (change :: changes) tick =
      (inForce? changes tick).or (if change.ticks ≤ tick then some change.bpm else none) := by
  rw [← inForce?_singleton, ← inForce?_append, List.singleton_append]

theorem inForce?_eq_none {changes : List (TempoChange R)} {tick : Nat} :
    inForce? changes tick = none ↔ ∀ change ∈ changes, tick < change.ticks := by
  simp [inForce?]

/-- Behind the last change, its tempo stays in force. -/
theorem inForce?_of_le {changes : List (TempoChange R)} {tick later : Nat}
    (h : ∀ change ∈ changes, change.ticks ≤ tick) (hle : tick ≤ later) :
    inForce? changes later = inForce? changes tick := by
  have hall : ∀ tick', tick ≤ tick' →
      (changes.filter fun change => change.ticks ≤ tick') = changes := by
    intro tick' hle'
    rw [List.filter_eq_self]
    intro change hchange
    simpa using (h change hchange).trans hle'
  unfold inForce?
  rw [hall later hle, hall tick le_rfl]

theorem mem_of_inForce? {changes : List (TempoChange R)} {tick : Nat} {bpm : R}
    (h : inForce? changes tick = some bpm) : ∃ change ∈ changes, change.bpm = bpm := by
  obtain ⟨change, hlast, hbpm⟩ := Option.map_eq_some_iff.1 h
  exact ⟨change, (List.mem_filter.1 (List.mem_of_getLast? hlast)).1, hbpm⟩

/-- A change that another one follows at the same tick is never in force. -/
theorem inForce?_overtaken {change next : TempoChange R} (h : change.ticks = next.ticks)
    (before after : List (TempoChange R)) (tick : Nat) :
    inForce? (before ++ change :: next :: after) tick =
      inForce? (before ++ next :: after) tick := by
  rw [inForce?_append, inForce?_append, inForce?_cons change, inForce?_cons next, h]
  by_cases hnext : next.ticks ≤ tick
  · simp [hnext]
  · simp [hnext]

/-- A change to the tempo that is in force anyway, or was before it, changes nothing. -/
theorem inForce?_repeated {before after : List (TempoChange R)} {change : TempoChange R}
    (hsorted : Sorted (before ++ change :: after))
    (h : inForce? (before ++ after) change.ticks = some change.bpm ∨
      inForce? before change.ticks = some change.bpm) (tick : Nat) :
    inForce? (before ++ change :: after) tick = inForce? (before ++ after) tick := by
  rw [inForce?_append, inForce?_append, inForce?_cons]
  by_cases hbegun : change.ticks ≤ tick
  · cases hafter : inForce? after tick with
    | some bpm => rfl
    | none =>
      -- the change is the last one up to `tick`, so the tempo before it is the one in force
      have hnone : inForce? after change.ticks = none :=
        inForce?_eq_none.2 fun other hother =>
          hbegun.trans_lt (inForce?_eq_none.1 hafter other hother)
      have hbefore : ∀ other ∈ before, other.ticks ≤ change.ticks :=
        fun other hother => (List.pairwise_append.1 hsorted).2.2 other hother change (by simp)
      rw [inForce?_append, hnone, Option.none_or, or_self] at h
      rw [inForce?_of_le hbefore hbegun, h, if_pos hbegun]
      rfl
  · rw [if_neg hbegun, Option.or_none]

end

/-! ## Tick by tick -/

theorem tickSeconds_nonneg {changes : List (TempoChange Rat)} (h : ∀ change ∈ changes, 0 < change.bpm)
    (perQuarter tick : Nat) : 0 ≤ tickSeconds perQuarter changes tick := by
  unfold tickSeconds
  cases hforce : inForce? changes tick with
  | none => simp
  | some bpm =>
    obtain ⟨change, hchange, rfl⟩ := mem_of_inForce? hforce
    have hbpm := h change hchange
    simp only [Option.map_some, Option.getD_some]
    positivity

/-- Where the segment of a first change stops, as far as a tick needs it. -/
def stopBefore (ticks : Nat) (changes : List (TempoChange Rat)) : Nat :=
  (changes.head?.map fun next => min next.ticks ticks).getD ticks

theorem stopBefore_le (ticks : Nat) (changes : List (TempoChange Rat)) :
    stopBefore ticks changes ≤ ticks := by
  cases changes with
  | nil => exact le_rfl
  | cons next changes => exact min_le_right _ _

/-- Up to there no other change is in force. -/
theorem inForce?_eq_none_iff {changes : List (TempoChange Rat)} (hsorted : Sorted changes)
    {tick ticks : Nat} (h : tick < ticks) :
    inForce? changes tick = none ↔ tick < stopBefore ticks changes := by
  rw [inForce?_eq_none]
  cases changes with
  | nil => simpa [stopBefore] using h
  | cons next changes =>
    have hlater := (List.pairwise_cons.1 hsorted).1
    simp only [stopBefore, List.head?_cons, Option.map_some, Option.getD_some, lt_min_iff, h, and_true]
    constructor
    · intro hall
      exact hall next List.mem_cons_self
    · intro hnext
      exact List.forall_mem_cons.2 ⟨hnext, fun other hother => hnext.trans_le (hlater other hother)⟩

/-- A first change adds its ticks up to the next change. -/
theorem tickSeconds_cons {change : TempoChange Rat} {changes : List (TempoChange Rat)}
    (hsorted : Sorted (change :: changes)) (perQuarter : Nat) {tick ticks : Nat} (h : tick < ticks) :
    tickSeconds perQuarter (change :: changes) tick =
      tickSeconds perQuarter changes tick +
        if tick ∈ Finset.Ico change.ticks (stopBefore ticks changes) then
          60 / (perQuarter * change.bpm) else 0 := by
  have hrest : Sorted changes := (List.pairwise_cons.1 hsorted).2
  have hstop := inForce?_eq_none_iff hrest h
  unfold tickSeconds
  rw [inForce?_cons]
  cases hforce : inForce? changes tick with
  | some bpm =>
    have hover : ¬tick < stopBefore ticks changes := by simpa [hforce] using hstop
    simp [Finset.mem_Ico, hover]
  | none =>
    have hin : tick < stopBefore ticks changes := hstop.1 hforce
    by_cases hbegun : change.ticks ≤ tick <;> simp [Finset.mem_Ico, hin, hbegun]

/-- A segment takes as long as its ticks. -/
theorem segmentSeconds_eq_sum (perQuarter : Nat) (bpm : Rat) {start stop ticks : Nat}
    (h : stop ≤ ticks) :
    segmentSeconds (stop - start) perQuarter bpm =
      ∑ tick ∈ Finset.range ticks,
        if tick ∈ Finset.Ico start stop then 60 / (perQuarter * bpm) else 0 := by
  have hinside : Finset.range ticks ∩ Finset.Ico start stop = Finset.Ico start stop := by
    rw [Finset.inter_eq_right]
    intro tick htick
    rw [Finset.mem_Ico] at htick
    exact Finset.mem_range.2 (htick.2.trans_le h)
  rw [Finset.sum_ite_mem, hinside, Finset.sum_const, Nat.card_Ico, nsmul_eq_mul]
  simp only [segmentSeconds, Quantity.ofNat]
  ring

/-- **The segments before a tick take as long as its ticks.** -/
theorem addSegments_eq_sum {changes : List (TempoChange Rat)} (hsorted : Sorted changes)
    (perQuarter ticks : Nat) (seconds : Rat) :
    addSegments perQuarter ticks seconds changes =
      seconds + ∑ tick ∈ Finset.range ticks, tickSeconds perQuarter changes tick := by
  induction changes generalizing seconds with
  | nil => simp [addSegments, tickSeconds, inForce?_nil]
  | cons change changes ih =>
    -- tick by tick, a first change adds its own segment to what the others take
    have hsum : ∑ tick ∈ Finset.range ticks, tickSeconds perQuarter (change :: changes) tick =
        ∑ tick ∈ Finset.range ticks, tickSeconds perQuarter changes tick +
          segmentSeconds (stopBefore ticks changes - change.ticks) perQuarter change.bpm := by
      rw [segmentSeconds_eq_sum perQuarter change.bpm (stopBefore_le ticks changes),
        ← Finset.sum_add_distrib]
      refine Finset.sum_congr rfl ?_
      intro tick htick
      exact tickSeconds_cons hsorted perQuarter (Finset.mem_range.1 htick)
    obtain ⟨hlater, hrest⟩ := List.pairwise_cons.1 hsorted
    rw [addSegments]
    by_cases hbegun : ticks ≤ change.ticks
    · -- neither this change nor a later one has begun
      have hnone : ∀ tick ∈ Finset.range ticks, tickSeconds perQuarter (change :: changes) tick = 0 := by
        intro tick htick
        have hbefore : tick < change.ticks := (Finset.mem_range.1 htick).trans_le hbegun
        have hforce : inForce? (change :: changes) tick = none :=
          inForce?_eq_none.2 (List.forall_mem_cons.2
            ⟨hbefore, fun other hother => hbefore.trans_le (hlater other hother)⟩)
        rw [tickSeconds, hforce]
        rfl
      rw [if_pos hbegun, Finset.sum_eq_zero hnone, add_zero]
    · rw [if_neg hbegun, ih hrest, hsum]
      simp only [stopBefore]
      ring

theorem secondsAt_eq {changes : List (TempoChange Rat)} (hsorted : Sorted changes)
    (ticks perQuarter : Nat) :
    secondsAt changes ticks perQuarter =
      ∑ tick ∈ Finset.range ticks, tickSeconds perQuarter changes tick := by
  have hzero : (Quantity.ofNat 0 : Rat) = 0 := rfl
  rw [secondsAt, addSegments_eq_sum hsorted, hzero, zero_add]

/-- Lists of changes that put the same tempo in force give the same times. -/
theorem secondsAt_congr {changes changes' : List (TempoChange Rat)} (hsorted : Sorted changes)
    (hsorted' : Sorted changes') (h : ∀ tick, inForce? changes tick = inForce? changes' tick)
    (ticks perQuarter : Nat) :
    secondsAt changes ticks perQuarter = secondsAt changes' ticks perQuarter := by
  rw [secondsAt_eq hsorted, secondsAt_eq hsorted']
  simp only [tickSeconds, h]

/-- **A tick is as late as the ticks before it last**, each at the tempo in force. So later ticks are not
earlier in seconds, and neither a change that is overtaken at its own tick nor one to the tempo in force
matters. -/
theorem secondsAt_eq_sum (changes : List (TempoChange Rat)) (hsorted : Sorted changes)
    (hbpm : ∀ change ∈ changes, 0 < change.bpm) (perQuarter : Nat) :
    (∀ ticks, secondsAt changes ticks perQuarter =
      ∑ tick ∈ Finset.range ticks, tickSeconds perQuarter changes tick) ∧
    Monotone (fun ticks => secondsAt changes ticks perQuarter) ∧
    (∀ before change next after, changes = before ++ change :: next :: after →
      change.ticks = next.ticks → ∀ ticks,
        secondsAt changes ticks perQuarter = secondsAt (before ++ next :: after) ticks perQuarter) ∧
    ∀ before change after, changes = before ++ after → Sorted (before ++ change :: after) →
      (inForce? changes change.ticks = some change.bpm ∨
        inForce? before change.ticks = some change.bpm) → ∀ ticks,
        secondsAt (before ++ change :: after) ticks perQuarter =
          secondsAt changes ticks perQuarter := by
  refine ⟨fun ticks => secondsAt_eq hsorted ticks perQuarter, ?_, ?_, ?_⟩
  · refine monotone_nat_of_le_succ fun ticks => ?_
    simp only [secondsAt_eq hsorted, Finset.sum_range_succ]
    exact le_add_of_nonneg_right (tickSeconds_nonneg hbpm perQuarter ticks)
  · rintro before change next after rfl hticks ticks
    have hfewer : Sorted (before ++ next :: after) :=
      hsorted.sublist ((List.sublist_cons_self _ _).append_left before)
    exact secondsAt_congr hsorted hfewer (inForce?_overtaken hticks before after) ticks perQuarter
  · rintro before change after rfl hmore hforce ticks
    exact secondsAt_congr hmore hsorted (inForce?_repeated hmore hforce) ticks perQuarter

/-- Two changes share a tick, nothing is in force before the first one, and one more change in the middle
repeats the tempo. -/
theorem secondsAt_eq_sum_shared_tick :
    let first : TempoChange Rat := ⟨10, 120, 0⟩
    let again : TempoChange Rat := ⟨490, 120, 0⟩
    let overtaken : TempoChange Rat := ⟨970, 30, 0⟩
    let last : TempoChange Rat := ⟨970, 60, 0⟩
    let changes := [first, overtaken, last]
    Sorted changes ∧ (∀ change ∈ changes, 0 < change.bpm) ∧ secondsAt changes 1930 960 = 3 / 2 ∧
      secondsAt changes 1930 960 = ∑ tick ∈ Finset.range 1930, tickSeconds 960 changes tick ∧
      secondsAt changes 970 960 ≤ secondsAt changes 1930 960 ∧
      secondsAt changes 1930 960 = secondsAt [first, last] 1930 960 ∧
      Sorted [first, again, overtaken, last] ∧ inForce? changes again.ticks = some again.bpm ∧
      secondsAt [first, again, overtaken, last] 1930 960 = secondsAt changes 1930 960 := by
  intro first again overtaken last changes
  have hsorted : Sorted changes := by simp [Sorted, changes, first, overtaken, last]
  have hbpm : ∀ change ∈ changes, 0 < change.bpm := by simp [changes, first, overtaken, last]
  have hmore : Sorted [first, again, overtaken, last] := by
    simp [Sorted, first, again, overtaken, last]
  have hforce : inForce? changes again.ticks = some again.bpm := by decide +kernel
  obtain ⟨hsum, hmono, hovertaken, hrepeated⟩ := secondsAt_eq_sum changes hsorted hbpm 960
  exact ⟨hsorted, hbpm, by decide +kernel, hsum 1930, hmono (by norm_num),
    hovertaken [first] overtaken last [] rfl rfl 1930, hmore, hforce,
    hrepeated [first] again [overtaken, last] rfl hmore (Or.inl hforce) 1930⟩

end RhythmTiles.TempoChange
