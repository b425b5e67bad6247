import RhythmTiles.Level.Document
import RhythmTiles.Options
import RhythmTiles.Timeline.Build

/-!
# Compiled levels

A compiled level has its rows, placed and with indicators, and its timeline. A fault in a score only
costs the timeline: the rows stay, and the fault is kept.
-/

namespace RhythmTiles

/-- Everything that a level is compiled into. -/
structure Compiled where
  rows : List Row
  sections : List (Section Float)
  placedRows : List (PlacedRow Float)
  indicators : List (Indicator Float)
  timeline : Timeline Float
  /-- Why there is no timeline. -/
  timelineFault : Option LevelFault
  audition : Option Json

namespace Compiled

def ofLevel (options : Options) (level : Level) : Compiled :=
  let layout := Layout.ofLevel level
  -- a timeline with a fault is left empty, and so there are no indicators
  let (timeline, fault) :=
    match level.timeline with
    | .ok timeline => (timeline, none)
    | .error fault => (Timeline.empty, some fault)
  let placed := PlacedRow.stack options.geometry layout.rows
  { rows := layout.rows
    sections := layout.sections
    placedRows := placed
    indicators := Indicator.place options.geometry placed layout.sections timeline
    timeline
    timelineFault := fault
    audition := level.audition }

def ofText (options : Options) (text : String) : Except LevelFault Compiled :=
  (Level.ofText text).map (ofLevel options)

end Compiled

/-- The timeline alone of a level document's text, with every fault. -/
def Timeline.ofText (text : String) : Except LevelFault (Timeline Float) := do
  let level ← Level.ofText text
  level.timeline

end RhythmTiles
