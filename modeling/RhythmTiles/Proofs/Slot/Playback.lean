import Mathlib.Data.List.Induction
import RhythmTiles.Proofs.Slot.Runs
import RhythmTiles.Proofs.Tracker.Marks

/-!
# Playback of a loaded level

A load starts with fresh marks of different ids and an empty tracker (`Fresh`). As long as the level
stays, a mark is consumed once some scan has found it due, and what is consumed is what has been
reported (`Playing`). The tracker may forget ids at any time and clocks may run as they like: marks are
never taken back, and they alone keep a scan from reporting an id again. Main theorem:
`reported_once_since_load`.
-/

namespace RhythmTiles.Slot

/-- Whether a call that is answered so leaves the level loaded. -/
def Answer.keepsLevel : Answer → Bool
  | refused _ | reported _ | shown _ => true
  | loaded _ | dropped _ => false

def Answer.ids : Answer → List String
  | reported ids => ids
  | _ => []

def reported (log : List (Step × Answer)) : List String := log.flatMap fun entry => entry.2.ids

theorem reported_append_singleton (log : List (Step × Answer)) (entry : Step × Answer) :
    reported (log ++ [entry]) = reported log ++ entry.2.ids := by
  simp [reported]

def indicators (slot : Slot) : List (Indicator Float) :=
  (slot.current.map Compiled.indicators).getD []

theorem getElem?_log (slot : Slot) (steps : List Step) (n : Nat) :
    (slot.log steps)[n]? =
      steps[n]?.map fun step => (step, ((slot.after (steps.take n)).perform step).2) := by
  induction steps generalizing slot n with
  | nil => rfl
  | cons step steps ih =>
    cases n with
    | zero => rfl
    | succ n => exact ih (slot.perform step).1 n

/-! ## Scans -/

theorem reported_scan (slot : Slot) (now : Float) :
    (slot.scan now).2 = (slot.tracker.scanIndicators slot.indicators now).fired := by
  unfold scan indicators
  cases slot.current <;> rfl

theorem indicators_scan (slot : Slot) (now : Float) :
    (slot.scan now).1.indicators =
      (slot.tracker.scanIndicators slot.indicators now).indicators := by
  unfold scan indicators
  cases hcurrent : slot.current with
  | none => simp [hcurrent, Tracker.scanIndicators, Tracker.passIndicators]
  | some level => rfl

/-- A scan leaves only consumed marks remembered. -/
theorem untold_scan {slot : Slot} (h : slot.tracker.Untold slot.indicators)
    (hids : (Indicator.ids slot.indicators).Nodup) (now : Float) :
    (slot.scan now).1.tracker.Untold (slot.scan now).1.indicators := by
  unfold scan indicators at *
  cases hcurrent : slot.current with
  | none => simp [hcurrent, Tracker.Untold]
  | some level =>
    rw [hcurrent] at h hids
    exact h.scanIndicators hids now

/-- A call that keeps the level and is no scan leaves the slot as it is and reports nothing. -/
theorem perform_of_keepsLevel {slot : Slot} {step : Step}
    (h : (slot.perform step).2.keepsLevel = true) (hscan : ∀ now, step ≠ .scan now) :
    (slot.perform step).1 = slot ∧ (slot.perform step).2.ids = [] := by
  cases step with
  | load text =>
    cases hload : slot.load text with
    | ok next =>
      rw [perform_load_of_ok hload] at h
      cases h
    | error fault =>
      rw [perform_load_of_error hload]
      exact ⟨rfl, rfl⟩
  | scan now => exact absurd rfl (hscan now)
  | current => exact ⟨rfl, rfl⟩
  | unload => cases h

/-! ## The start of a level -/

/-- Nothing has been played: the marks differ in their ids, none is consumed, and nothing is
remembered. -/
structure Fresh (slot : Slot) : Prop where
  nodup : (Indicator.ids slot.indicators).Nodup
  unconsumed : ∀ i ∈ slot.indicators, i.consumed = false
  forgotten : slot.tracker.consumed = []

/-- A load starts a level. -/
theorem fresh_of_load {slot start : Slot} {text : String} (h : slot.load text = .ok start) :
    Fresh start := by
  unfold load Compiled.ofText at h
  cases hlevel : Level.ofText text with
  | error fault =>
    rw [hlevel] at h
    cases h
  | ok level =>
    rw [hlevel] at h
    cases h
    exact ⟨Indicator.nodup_ids_place _ _ _ _, fun i => Indicator.consumed_of_mem_place _ _ _ _, rfl⟩

/-! ## What a run has passed -/

/-- Whether one of the calls is a scan that finds a time due. -/
def passed (t : Tracker Float) (steps : List Step) (time : Float) : Bool :=
  steps.any fun
    | .scan now => t.isDue time now
    | _ => false

theorem passed_append_scan (t : Tracker Float) (steps : List Step) (now time : Float) :
    passed t (steps ++ [.scan now]) time = (passed t steps time || t.isDue time now) := by
  simp [passed]

theorem passed_append_singleton {step : Step} (hscan : ∀ now, step ≠ .scan now)
    (t : Tracker Float) (steps : List Step) (time : Float) :
    passed t (steps ++ [step]) time = passed t steps time := by
  cases step with
  | scan now => exact absurd rfl (hscan now)
  | _ => simp [passed]

theorem passed_of_take {t : Tracker Float} {steps : List Step} {m n : Nat} (hle : m ≤ n)
    {time : Float} (h : passed t (steps.take m) time = true) :
    passed t (steps.take n) time = true := by
  obtain ⟨step, hstep, hdue⟩ := List.any_eq_true.1 h
  exact List.any_eq_true.2 ⟨step, List.take_subset_take_left steps hle hstep, hdue⟩

/-- An indicator, consumed if the calls have passed it. -/
def markPassed (t : Tracker Float) (steps : List Step) (i : Indicator Float) : Indicator Float :=
  { i with consumed := passed t steps i.time }

/-- What a run has done to the level it has started with. -/
structure Playing (start : Slot) (steps : List Step) : Prop where
  indicators : (start.after steps).indicators =
    start.indicators.map (markPassed start.tracker steps)
  settings : (start.after steps).tracker.settings = start.tracker.settings
  untold : (start.after steps).tracker.Untold (start.after steps).indicators
  nodup : (reported (start.log steps)).Nodup
  mem_reported : ∀ id, id ∈ reported (start.log steps) ↔
    ∃ i ∈ start.indicators, i.id = id ∧ passed start.tracker steps i.time = true

variable {start : Slot} {steps : List Step}

theorem Fresh.playing (h : Fresh start) : Playing start [] where
  indicators := by
    have hsame : ∀ i ∈ start.indicators, i = markPassed start.tracker [] i := by
      intro i hi
      have hconsumed := h.unconsumed i hi
      cases i
      simp_all [markPassed, passed]
    exact (List.map_id _).symm.trans (List.map_congr_left hsame)
  settings := rfl
  untold := by
    intro i _ _
    show start.tracker.isConsumed i.id = false
    simp [Tracker.isConsumed, h.forgotten]
  nodup := List.nodup_nil
  mem_reported := by simp [log, reported, passed]

theorem Playing.ids (h : Playing start steps) :
    Indicator.ids (start.after steps).indicators = Indicator.ids start.indicators := by
  rw [h.indicators]
  exact List.map_map

/-- A scan reports the marks that it is the first to find due. -/
theorem Playing.reported_scan (hstart : Fresh start) (h : Playing start steps) (now : Float) :
    ((start.after steps).scan now).2 = Indicator.ids (start.indicators.filter fun i =>
      !passed start.tracker steps i.time && start.tracker.isDue i.time now) := by
  have hids : (Indicator.ids (start.after steps).indicators).Nodup := by
    rw [h.ids]
    exact hstart.nodup
  rw [Slot.reported_scan, Tracker.fired_scanIndicators h.untold hids, h.indicators,
    List.filter_map]
  have hfires : (start.after steps).tracker.fires now ∘ markPassed start.tracker steps =
      fun i => !passed start.tracker steps i.time && start.tracker.isDue i.time now := by
    funext i
    exact congrArg (!passed start.tracker steps i.time && ·)
      (Tracker.isDue_of_settings h.settings i.time now)
  rw [hfires]
  exact List.map_map

/-- A scan consumes the marks that it finds due. -/
theorem Playing.indicators_scan (h : Playing start steps) (now : Float) :
    ((start.after steps).scan now).1.indicators =
      start.indicators.map (markPassed start.tracker (steps ++ [.scan now])) := by
  rw [Slot.indicators_scan]
  show ((start.after steps).tracker.passIndicators now _).indicators = _
  rw [Tracker.indicators_passIndicators, h.indicators, List.map_map]
  apply List.map_congr_left
  intro i _
  have hdue : (start.after steps).tracker.isDue (markPassed start.tracker steps i).time now =
      start.tracker.isDue i.time now := Tracker.isDue_of_settings h.settings i.time now
  rw [Function.comp_apply, hdue, markPassed, markPassed, passed_append_scan]
  cases start.tracker.isDue i.time now with
  | true => rw [Bool.or_true, if_pos rfl]
  | false => rw [Bool.or_false, if_neg Bool.false_ne_true]

/-- The marks passed after a scan are those passed before and those that it is the first to find
due. -/
theorem passed_scan_iff (t : Tracker Float) (steps : List Step) (now : Float)
    (marks : List (Indicator Float)) (id : String) :
    (∃ i ∈ marks, i.id = id ∧ passed t (steps ++ [.scan now]) i.time = true) ↔
      (∃ i ∈ marks, i.id = id ∧ passed t steps i.time = true) ∨
        id ∈ Indicator.ids (marks.filter fun i => !passed t steps i.time && t.isDue i.time now) := by
  simp only [passed_append_scan]
  constructor
  · rintro ⟨i, hi, rfl, hpassed⟩
    cases hbefore : passed t steps i.time with
    | true => exact Or.inl ⟨i, hi, rfl, hbefore⟩
    | false =>
      rw [hbefore, Bool.false_or] at hpassed
      exact Or.inr (List.mem_map_of_mem (List.mem_filter.2 ⟨hi, by rw [hbefore, hpassed]; rfl⟩))
  · rintro (⟨i, hi, rfl, hpassed⟩ | hnow)
    · exact ⟨i, hi, rfl, by rw [hpassed, Bool.true_or]⟩
    · obtain ⟨i, hi, rfl⟩ := List.mem_map.1 hnow
      obtain ⟨hi, hfirst⟩ := List.mem_filter.1 hi
      exact ⟨i, hi, rfl, by rw [(Bool.and_eq_true_iff.1 hfirst).2, Bool.or_true]⟩

theorem Playing.scan (hstart : Fresh start) (h : Playing start steps) (now : Float) :
    Playing start (steps ++ [.scan now]) := by
  have hids : (Indicator.ids (start.after steps).indicators).Nodup := by
    rw [h.ids]
    exact hstart.nodup
  have hafter : start.after (steps ++ [.scan now]) = ((start.after steps).scan now).1 := by
    rw [after_append]
    rfl
  have hreported : reported (start.log (steps ++ [.scan now])) =
      reported (start.log steps) ++ ((start.after steps).scan now).2 := by
    rw [log_append]
    exact reported_append_singleton _ _
  constructor
  · rw [hafter]
    exact h.indicators_scan now
  · rw [hafter, (settings_scan _ now).2, h.settings]
  · rw [hafter]
    exact untold_scan h.untold hids now
  · rw [hreported, h.reported_scan hstart now]
    refine h.nodup.append (hstart.nodup.sublist (List.filter_sublist.map _)) ?_
    -- an id is of one mark, which has not been passed before
    intro id hbefore hnow
    obtain ⟨i, hi, hid, hpassed⟩ := (h.mem_reported id).1 hbefore
    obtain ⟨j, hj, rfl⟩ := List.mem_map.1 hnow
    obtain ⟨hj, hfirst⟩ := List.mem_filter.1 hj
    rw [← List.inj_on_of_nodup_map hstart.nodup hi hj hid, hpassed] at hfirst
    cases hfirst
  · intro id
    rw [hreported, h.reported_scan hstart now, List.mem_append, h.mem_reported, passed_scan_iff]

theorem Playing.idle (h : Playing start steps) {step : Step} (hscan : ∀ now, step ≠ .scan now)
    (hkeeps : ((start.after steps).perform step).2.keepsLevel = true) :
    Playing start (steps ++ [step]) := by
  obtain ⟨hsame, hids⟩ := perform_of_keepsLevel hkeeps hscan
  have hafter : start.after (steps ++ [step]) = start.after steps := by
    rw [after_append]
    exact hsame
  have hreported : reported (start.log (steps ++ [step])) = reported (start.log steps) := by
    rw [log_append]
    exact (reported_append_singleton _ _).trans (by rw [hids, List.append_nil])
  have hmark : markPassed start.tracker (steps ++ [step]) = markPassed start.tracker steps := by
    funext i
    rw [markPassed, passed_append_singleton hscan, markPassed]
  constructor
  · rw [hafter, hmark]
    exact h.indicators
  · rw [hafter]
    exact h.settings
  · rw [hafter]
    exact h.untold
  · rw [hreported]
    exact h.nodup
  · intro id
    simp only [hreported, passed_append_singleton hscan]
    exact h.mem_reported id

/-- As long as the level stays, it is being played. -/
theorem Fresh.playing_of_keepsLevel (hstart : Fresh start) {steps : List Step}
    (hkeeps : ∀ entry ∈ start.log steps, entry.2.keepsLevel = true) : Playing start steps := by
  induction steps using List.reverseRecOn with
  | nil => exact hstart.playing
  | append_singleton steps step ih =>
    simp only [log_append, List.forall_mem_append] at hkeeps
    have hbefore := ih hkeeps.1
    have hstep := hkeeps.2 _ List.mem_cons_self
    cases step with
    | scan now => exact hbefore.scan hstart now
    | _ => exact hbefore.idle (by simp) hstep

/-- Every beginning of such a run is one. -/
theorem keepsLevel_take {start : Slot} {steps : List Step}
    (hkeeps : ∀ entry ∈ start.log steps, entry.2.keepsLevel = true) (n : Nat) :
    ∀ entry ∈ start.log (steps.take n), entry.2.keepsLevel = true := by
  intro entry hentry
  apply hkeeps
  rw [← List.take_append_drop n steps, log_append]
  exact List.mem_append_left _ hentry

/-- **Since a load every id is reported once**, by the first scan that finds its mark due; at every
point of the run the consumed marks are those reported so far, and marks stay consumed. -/
theorem reported_once_since_load {slot start : Slot} {text : String}
    (hload : slot.load text = .ok start) {steps : List Step}
    (hkeeps : ∀ entry ∈ start.log steps, entry.2.keepsLevel = true) :
    (reported (start.log steps)).Nodup ∧
    (∀ n, ∀ i ∈ (start.after (steps.take n)).indicators,
      i.consumed = true ↔ i.id ∈ reported (start.log (steps.take n))) ∧
    (∀ n now, steps[n]? = some (Step.scan now) →
      (start.log steps)[n]? = some (Step.scan now, Answer.reported (Indicator.ids
        (start.indicators.filter fun i =>
          !passed start.tracker (steps.take n) i.time && start.tracker.isDue i.time now)))) ∧
    ∀ m n, m ≤ n → List.Forall₂
      (fun i j => j = { i with consumed := j.consumed } ∧ (i.consumed = true → j.consumed = true))
      (start.after (steps.take m)).indicators (start.after (steps.take n)).indicators := by
  have hstart := fresh_of_load hload
  have hplaying := fun n => hstart.playing_of_keepsLevel (keepsLevel_take hkeeps n)
  refine ⟨(hstart.playing_of_keepsLevel hkeeps).nodup, ?_, ?_, ?_⟩
  · intro n i hi
    rw [(hplaying n).indicators] at hi
    obtain ⟨j, hj, rfl⟩ := List.mem_map.1 hi
    rw [(hplaying n).mem_reported]
    constructor
    · exact fun hpassed => ⟨j, hj, rfl, hpassed⟩
    · rintro ⟨k, hk, hid, hpassed⟩
      -- marks differ in their ids, so it is this mark that was passed
      rw [List.inj_on_of_nodup_map hstart.nodup hk hj hid] at hpassed
      exact hpassed
  · intro n now hscan
    rw [getElem?_log, hscan, ← (hplaying n).reported_scan hstart now]
    rfl
  · intro m n hle
    rw [(hplaying m).indicators, (hplaying n).indicators, List.forall₂_map_left_iff,
      List.forall₂_map_right_iff, List.forall₂_same]
    exact fun i _ => ⟨rfl, passed_of_take hle⟩

/-- A clock that jumps ahead, back and nowhere, with a load that fails in between. -/
theorem reported_once_since_load_wild_clock :
    let text := "\x7b\"baseBpm\": 120, \"musics\": ["
      ++ "\x7b\"id\": 0, \"baseBeats\": 1, \"scores\": [\"(c)[K],(e)[K]\"]\x7d]\x7d"
    let steps : List Step :=
      [.scan 0, .scan 100, .scan 0.5, .load "[]", .scan (0 / 0), .current, .scan 0]
    ∃ start, (new Options.default).load text = .ok start ∧
      (∀ entry ∈ start.log steps, entry.2.keepsLevel = true) ∧
      (reported (start.log steps)).Nodup ∧
      ∀ i ∈ (start.after steps).indicators,
        i.consumed = true ↔ i.id ∈ reported (start.log steps) := by
  intro text steps
  have hok : ((new Options.default).load text).toOption.any (fun start =>
      (start.log steps).all fun entry => entry.2.keepsLevel) = true := by decide +kernel
  cases hload : (new Options.default).load text with
  | error fault =>
    rw [hload] at hok
    cases hok
  | ok start =>
    rw [hload] at hok
    have hkeeps := List.all_eq_true.1 hok
    obtain ⟨hnodup, hmarks, -, -⟩ := reported_once_since_load hload hkeeps
    exact ⟨start, rfl, hkeeps, hnodup, hmarks steps.length⟩

end RhythmTiles.Slot
