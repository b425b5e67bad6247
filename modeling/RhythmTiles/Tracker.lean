import RhythmTiles.Grid.Indicator

/-!
# Playback

Playback asks again and again which events its clock has just passed. An event is due when it lies
within the lookback before the clock, and each is reported once: its id is remembered until it falls
behind the retention.
-/

namespace RhythmTiles

/-- How far playback looks back and how long it remembers, in seconds. -/
structure TrackerOptions (R : Type) where
  lookback : R
  retention : R

/-- What playback remembers. -/
structure Tracker (R : Type) where
  lookback : R
  retention : R
  /-- The ids reported, with the times of their events. -/
  consumed : List (String × R)
  lastPrune : Option R

namespace Tracker

variable {R : Type} [Quantity R]

/-- A tracker that remembers nothing. The lookback is not negative, and ids are kept at least as
long as the lookback. -/
def new (options : TrackerOptions R) : Tracker R :=
  let lookback := Quantity.atLeast (Quantity.ofNat 0) options.lookback
  ⟨lookback, Quantity.atLeast lookback options.retention, [], none⟩

/-- Whether a time has just been passed. -/
def isDue (t : Tracker R) (time now : R) : Bool := now - t.lookback < time && time ≤ now

def isConsumed (t : Tracker R) (id : String) : Bool := t.consumed.any fun entry => entry.1 == id

def consumedCount (t : Tracker R) : Nat := t.consumed.length

/-- Remembers an id that is not remembered yet, and says whether it was new. -/
def claim (t : Tracker R) (id : String) (time : R) : Bool × Tracker R :=
  if t.isConsumed id then (false, t) else (true, { t with consumed := (id, time) :: t.consumed })

/-- Forgets events that lie before the retention. -/
def prune (t : Tracker R) (now : R) : Tracker R :=
  let horizon := now - t.retention
  { t with consumed := t.consumed.filter fun entry => horizon ≤ entry.2, lastPrune := some now }

/-- Whether half a retention has passed since the last pruning. -/
def shouldPrune (t : Tracker R) (now : R) : Bool :=
  match t.lastPrune with
  | none => true
  | some last => t.retention / Quantity.ofNat 2 ≤ now - last

def tidy (t : Tracker R) (now : R) : Tracker R := if t.shouldPrune now then t.prune now else t

def reset (t : Tracker R) : Tracker R := { t with consumed := [], lastPrune := none }

/-- What a scan leaves behind: the tracker, the indicators, and what it reports. -/
structure IndicatorScan (R : Type) where
  tracker : Tracker R
  indicators : List (Indicator R)
  fired : List String

/-- Goes through indicators, consumes those that are due, and reports their new ids. -/
def passIndicators (t : Tracker R) (now : R) : List (Indicator R) → IndicatorScan R
  | [] => ⟨t, [], []⟩
  | i :: indicators =>
    if i.consumed || !t.isDue i.time now then
      let rest := t.passIndicators now indicators
      { rest with indicators := i :: rest.indicators }
    else
      -- another indicator of this id may have been reported: this one is consumed all the same
      let (isNew, t) := t.claim i.id i.time
      let rest := t.passIndicators now indicators
      { rest with
        indicators := { i with consumed := true } :: rest.indicators
        fired := if isNew then i.id :: rest.fired else rest.fired }

def scanIndicators (t : Tracker R) (indicators : List (Indicator R)) (now : R) : IndicatorScan R :=
  let scan := t.passIndicators now indicators
  { scan with tracker := scan.tracker.tidy now }

/-- Goes through notes and reports those that are due and new. -/
def passNotes (t : Tracker R) (now : R) : List (Nat × Note R) → Tracker R × List (Nat × Note R)
  | [] => (t, [])
  | (track, note) :: notes =>
    if t.isDue note.time now then
      let (isNew, t) := t.claim (note.id track) note.time
      let (t, fired) := t.passNotes now notes
      (t, if isNew then (track, note) :: fired else fired)
    else t.passNotes now notes

def scanNotes (t : Tracker R) (timeline : Timeline R) (now : R) :
    Tracker R × List (Nat × Note R) :=
  let (t, fired) := t.passNotes now timeline.notes
  (t.tidy now, fired)

end Tracker

end RhythmTiles
