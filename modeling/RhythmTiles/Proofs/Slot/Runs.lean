import RhythmTiles.Proofs.Tracker.Pass
import RhythmTiles.Slot

/-!
# Runs of a slot

A run is a row of calls: loads, scans, looks at the loaded level, unloadings. Its log keeps every
call with its answer. A load that fails changes nothing (`perform_of_isRefusal`), so such loads can
be taken out of a run. Options and tracker settings never change (`Made`), so a load that succeeds,
or an unloading, leaves behind what it would leave behind of a new slot (`Made.load`,
`Made.unload`). Main theorem: `run_forgets`.
-/

namespace RhythmTiles.Slot

/-- A call of a slot. -/
inductive Step where
  | load (text : String)
  | scan (now : Float)
  | current
  | unload

inductive Answer where
  /-- The level that has been loaded. -/
  | loaded (level : Option Compiled)
  /-- Why nothing has been loaded. -/
  | refused (fault : LevelFault)
  /-- The ids that a scan reports. -/
  | reported (ids : List String)
  | shown (level : Option Compiled)
  | dropped (level : Option Compiled)

/-- Whether the answer is that of a load that fails. -/
def Answer.isRefusal : Answer → Bool
  | refused _ => true
  | _ => false

/-- The slot after a call, and the answer. -/
def perform (slot : Slot) : Step → Slot × Answer
  | .load text =>
    match slot.load text with
    | .ok next => (next, .loaded next.current)
    | .error fault => (slot, .refused fault)
  | .scan now => ((slot.scan now).1, .reported (slot.scan now).2)
  | .current => (slot, .shown slot.current)
  | .unload => (slot.unload.1, .dropped slot.unload.2)

theorem perform_load_of_ok {slot next : Slot} {text : String} (h : slot.load text = .ok next) :
    slot.perform (.load text) = (next, .loaded next.current) := by
  simp only [perform, h]

theorem perform_load_of_error {slot : Slot} {text : String} {fault : LevelFault}
    (h : slot.load text = .error fault) : slot.perform (.load text) = (slot, .refused fault) := by
  simp only [perform, h]

def after (slot : Slot) (steps : List Step) : Slot :=
  steps.foldl (fun slot step => (slot.perform step).1) slot

/-- The calls of a run with their answers. -/
def log (slot : Slot) : List Step → List (Step × Answer)
  | [] => []
  | step :: steps => (step, (slot.perform step).2) :: (slot.perform step).1.log steps

theorem after_cons (slot : Slot) (step : Step) (steps : List Step) :
    slot.after (step :: steps) = (slot.perform step).1.after steps := rfl

theorem after_append (slot : Slot) (steps later : List Step) :
    slot.after (steps ++ later) = (slot.after steps).after later := List.foldl_append

theorem log_append (slot : Slot) (steps later : List Step) :
    slot.log (steps ++ later) = slot.log steps ++ (slot.after steps).log later := by
  induction steps generalizing slot with
  | nil => rfl
  | cons step steps ih =>
    exact congrArg ((step, (slot.perform step).2) :: ·) (ih (slot.perform step).1)

/-! ## Loads that fail -/

/-- A load that fails leaves the slot as it is. -/
theorem perform_of_isRefusal {slot : Slot} {step : Step}
    (h : (slot.perform step).2.isRefusal = true) : (slot.perform step).1 = slot := by
  cases step with
  | load text =>
    cases hload : slot.load text with
    | ok next =>
      rw [perform_load_of_ok hload] at h
      cases h
    | error fault => rw [perform_load_of_error hload]
  | scan now => cases h
  | current => rfl
  | unload => cases h

/-- The entries of a run, without the loads that fail. -/
def kept (slot : Slot) (steps : List Step) : List (Step × Answer) :=
  (slot.log steps).filter fun entry => !entry.2.isRefusal

theorem kept_cons_of_isRefusal {slot : Slot} {step : Step}
    (h : (slot.perform step).2.isRefusal = true) (steps : List Step) :
    slot.kept (step :: steps) = slot.kept steps := by
  have hrest : slot.kept (step :: steps) = (slot.perform step).1.kept steps :=
    List.filter_cons_of_neg (by simp [h])
  rw [hrest, perform_of_isRefusal h]

theorem kept_cons_of_not_isRefusal {slot : Slot} {step : Step}
    (h : (slot.perform step).2.isRefusal = false) (steps : List Step) :
    slot.kept (step :: steps) =
      (step, (slot.perform step).2) :: (slot.perform step).1.kept steps :=
  List.filter_cons_of_pos (by simp [h])

/-- Without the loads that fail a run has the same answers otherwise, and ends in the same state. -/
theorem run_kept (slot : Slot) (steps : List Step) :
    slot.log ((slot.kept steps).map Prod.fst) = slot.kept steps ∧
      slot.after ((slot.kept steps).map Prod.fst) = slot.after steps := by
  induction steps generalizing slot with
  | nil => exact ⟨rfl, rfl⟩
  | cons step steps ih =>
    rw [after_cons]
    cases h : (slot.perform step).2.isRefusal with
    | true =>
      rw [kept_cons_of_isRefusal h, perform_of_isRefusal h]
      exact ih slot
    | false =>
      obtain ⟨hlog, hafter⟩ := ih (slot.perform step).1
      rw [kept_cons_of_not_isRefusal h, List.map_cons, after_cons]
      exact ⟨congrArg ((step, (slot.perform step).2) :: ·) hlog, hafter⟩

/-! ## What stays -/

/-- The slot has been made with these options. -/
structure Made (made : Options) (slot : Slot) : Prop where
  options : slot.options = made
  tracker : slot.tracker.settings = (Tracker.new made.tracker).settings

variable {options : Options} {slot : Slot}

theorem made_new (options : Options) : Made options (new options) := ⟨rfl, rfl⟩

/-- A tracker that is reset is a new one with its settings. -/
theorem Made.reset (h : Made options slot) :
    slot.tracker.reset = Tracker.new options.tracker := by
  obtain ⟨hlookback, hretention⟩ := TrackerOptions.mk.inj h.tracker
  unfold Tracker.reset
  rw [hlookback, hretention]
  rfl

/-- A load does to a slot what it does to a new one. -/
theorem Made.load (h : Made options slot) (text : String) :
    slot.load text = (new options).load text := by
  unfold Slot.load
  rw [h.options, h.reset]
  rfl

/-- An unloaded slot is a new one. -/
theorem Made.unload (h : Made options slot) : slot.unload.1 = new options := by
  unfold Slot.unload
  rw [h.options, h.reset]
  rfl

theorem settings_scan (slot : Slot) (now : Float) :
    (slot.scan now).1.options = slot.options ∧
      (slot.scan now).1.tracker.settings = slot.tracker.settings := by
  unfold scan
  cases slot.current with
  | none => exact ⟨rfl, rfl⟩
  | some level =>
    refine ⟨rfl, ?_⟩
    show ((slot.tracker.passIndicators now level.indicators).tracker.tidy now).settings = _
    rw [Tracker.settings_tidy, (slot.tracker.passIndicators_eq now level.indicators).1,
      Tracker.settings_pass]

theorem made_of_load {text : String} {next : Slot} (h : (new options).load text = .ok next) :
    Made options next := by
  unfold Slot.load at h
  cases hcompiled : Compiled.ofText (new options).options text with
  | error fault =>
    rw [hcompiled] at h
    cases h
  | ok compiled =>
    rw [hcompiled] at h
    cases h
    exact ⟨rfl, rfl⟩

theorem Made.perform (h : Made options slot) (step : Step) :
    Made options (slot.perform step).1 := by
  cases step with
  | load text =>
    cases hload : slot.load text with
    | ok next =>
      rw [perform_load_of_ok hload]
      rw [h.load] at hload
      exact made_of_load hload
    | error fault =>
      rw [perform_load_of_error hload]
      exact h
  | scan now =>
    obtain ⟨hoptions, htracker⟩ := settings_scan slot now
    exact ⟨hoptions.trans h.options, htracker.trans h.tracker⟩
  | current => exact h
  | unload =>
    show Made options slot.unload.1
    rw [h.unload]
    exact made_new options

theorem Made.after (h : Made options slot) (steps : List Step) :
    Made options (slot.after steps) := by
  induction steps generalizing slot with
  | nil => exact h
  | cons step steps ih => exact ih (h.perform step)

theorem made_after (options : Options) (steps : List Step) :
    Made options ((new options).after steps) := (made_new options).after steps

/-! ## What is forgotten -/

/-- **A run forgets**: loads that fail leave no trace in it, and a load that succeeds or an
unloading starts it anew, whatever happened before. -/
theorem run_forgets (options : Options) (steps : List Step) :
    ((new options).log (((new options).kept steps).map Prod.fst) = (new options).kept steps ∧
      (new options).after (((new options).kept steps).map Prod.fst) = (new options).after steps) ∧
    (∀ text, ((new options).after steps).load text = (new options).load text ∧
      ∀ next, ((new options).after steps).load text = .ok next →
        (new options).after (steps ++ [.load text]) = (new options).after [.load text] ∧
        ∀ later, (new options).log (steps ++ .load text :: later) =
          (new options).log steps ++ (new options).log (.load text :: later)) ∧
    (new options).after (steps ++ [.unload]) = new options ∧
    ∀ later, (new options).log (steps ++ .unload :: later) =
      (new options).log steps ++
        (.unload, .dropped ((new options).after steps).current) :: (new options).log later := by
  have hmade := made_after options steps
  refine ⟨run_kept (new options) steps, ?_, ?_, ?_⟩
  · intro text
    refine ⟨hmade.load text, fun next hnext => ?_⟩
    have hfresh : (new options).load text = .ok next := (hmade.load text).symm.trans hnext
    have hperform : ((new options).after steps).perform (.load text) =
        (new options).perform (.load text) := by
      rw [perform_load_of_ok hnext, perform_load_of_ok hfresh]
    constructor
    · rw [after_append, after_cons, hperform]
      rfl
    · intro later
      rw [log_append, log, hperform]
      rfl
  · rw [after_append]
    exact hmade.unload
  · intro later
    rw [log_append, log]
    show _ ++ (Step.unload, _) :: ((new options).after steps).unload.1.log later = _
    rw [hmade.unload]
    rfl

/-- A level is played, a load fails, and the level is loaded anew: it plays as in a new slot. -/
theorem run_forgets_reload :
    let text := "\x7b\"baseBpm\": 120, \"musics\": ["
      ++ "\x7b\"id\": 0, \"baseBeats\": 1, \"scores\": [\"(c)[K],(e)[K]\"]\x7d]\x7d"
    let start := new Options.default
    let steps : List Step := [.load text, .scan 0, .load "[]"]
    (∃ next, (start.after steps).load text = .ok next) ∧
      start.log (steps ++ [.load text, .scan 0]) =
        start.log steps ++ start.log [.load text, .scan 0] := by
  intro text start steps
  obtain ⟨-, hload, -, -⟩ := run_forgets Options.default steps
  obtain ⟨hsame, hanew⟩ := hload text
  have hok : (start.load text).toOption.isSome = true := by decide +kernel
  cases hnext : start.load text with
  | error fault =>
    rw [hnext] at hok
    cases hok
  | ok next =>
    have hnext : (start.after steps).load text = .ok next := hsame.trans hnext
    exact ⟨⟨next, hnext⟩, (hanew next hnext).2 [.scan 0]⟩

end RhythmTiles.Slot
