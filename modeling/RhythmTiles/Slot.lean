import RhythmTiles.Compiled.Basic

/-!
# The loaded level

A slot holds the level that is being played, with the tracker of its playback. A level that cannot
be compiled leaves the slot as it was.
-/

namespace RhythmTiles

structure Slot where
  options : Options
  current : Option Compiled
  tracker : Tracker Float

namespace Slot

def new (options : Options) : Slot := ⟨options, none, Tracker.new options.tracker⟩

/-- Compiles a level and loads it. Playback starts anew. -/
def load (slot : Slot) (text : String) : Except LevelFault Slot :=
  (Compiled.ofText slot.options text).map fun compiled =>
    { slot with current := some compiled, tracker := slot.tracker.reset }

/-- Consumes the indicators of the loaded level that are due, and reports their ids. -/
def scan (slot : Slot) (now : Float) : Slot × List String :=
  match slot.current with
  | none => (slot, [])
  | some level =>
    let scan := slot.tracker.scanIndicators level.indicators now
    ({ slot with
        current := some { level with indicators := scan.indicators }
        tracker := scan.tracker }, scan.fired)

def unload (slot : Slot) : Slot × Option Compiled :=
  ({ slot with current := none, tracker := slot.tracker.reset }, slot.current)

end Slot

end RhythmTiles
