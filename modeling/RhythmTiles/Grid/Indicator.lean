import RhythmTiles.Grid.Stack
import RhythmTiles.Timeline.Basic

/-!
# Indicators

Every row above the start row has a time window, as long as its height at the speed of its section,
and the windows follow each other from time zero. A note is marked on the row in whose window it
starts, at the matching height.
-/

namespace RhythmTiles

/-- A mark where a note falls inside its row. -/
structure Indicator (R : Type) where
  id : String
  rowIndex : Nat
  x : R
  y : R
  width : R
  height : R
  time : R
  /-- Whether playback has passed the note. -/
  consumed : Bool

def noteId (millis : Int) (track : Nat) (pitch : Pitch) : String := s!"{millis}-{track}-{pitch}"

def toMillis {R : Type} [Quantity R] (time : R) : Int :=
  Quantity.nearest (time * Quantity.ofNat 1000)

def Note.id {R : Type} [Quantity R] (note : Note R) (track : Nat) : String :=
  noteId (toMillis note.time) track note.pitch

/-- The time window of a placed row: from `start` to just before `stop`. -/
structure RowWindow (R : Type) where
  row : PlacedRow R
  start : R
  stop : R

namespace RowWindow

variable {R : Type} [Quantity R]

/-- The windows of rows from a time on. Row `sequence` of the level is the next one; rows behind the
last section have no window, and a section without usable speed takes no time. -/
def follow (sections : List (Section R)) (time : R) (sequence : Nat) :
    List (PlacedRow R) → List (RowWindow R)
  | [] => []
  | row :: rows =>
    if row.isStart then follow sections time sequence rows
    else
      match sections.find? fun s => s.containsRow sequence with
      | none => []
      | some s =>
        if Quantity.isFinite s.tilesPerSecond ∧ Quantity.ofNat 0 < s.tilesPerSecond then
          let stop := time + Quantity.ofNat row.tiles / s.tilesPerSecond
          ⟨row, time, stop⟩ :: follow sections stop (sequence + 1) rows
        -- the row is counted, but no time passes
        else follow sections time (sequence + 1) rows

def ofRows (rows : List (PlacedRow R)) (sections : List (Section R)) : List (RowWindow R) :=
  follow sections (Quantity.ofNat 0) 0 rows

/-- The first place between `low` and `high` whose window does not end by a time, where windows are
sorted by their ends. -/
def search (windows : Array (RowWindow R)) (time : R) (low high : Nat) : Nat :=
  if low < high then
    let middle := (low + high) / 2
    match windows[middle]? with
    | some w =>
      if w.stop ≤ time then search windows time (middle + 1) high
      else search windows time low middle
    | none => low
  else low
termination_by high - low
decreasing_by all_goals omega

/-- The window that holds a time. -/
def at? (windows : Array (RowWindow R)) (time : R) : Option (RowWindow R) :=
  (windows[search windows time 0 windows.size]?).filter fun w => w.start ≤ time

end RowWindow

namespace Indicator

variable {R : Type} [Quantity R]

def mark (g : Geometry R) (w : RowWindow R) (id : String) (time : R) : Indicator R :=
  let fraction := (time - w.start) / (w.stop - w.start)
  let anchor := w.row.bottom - g.baseTileHeight
  { id
    rowIndex := w.row.index
    x := g.playAreaWidth / Quantity.ofNat 2 - g.indicatorSize / Quantity.ofNat 2
    y := anchor - fraction * w.row.height - g.indicatorOffset
    width := g.indicatorSize
    height := g.indicatorSize
    time
    consumed := false }

/-- The window in which a note of a piano key is marked: one whose row has tiles. -/
def window? (windows : Array (RowWindow R)) (note : Note R) : Option (RowWindow R) :=
  if note.pitch.isKey then
    (RowWindow.at? windows note.time).filter fun w => !w.row.isStart && w.row.tileCount != 0
  else none

/-- Marks notes in order, each id once. -/
def markAll (g : Geometry R) (windows : Array (RowWindow R)) (seen : List String) :
    List (Nat × Note R) → List (Indicator R)
  | [] => []
  | (track, note) :: notes =>
    match window? windows note with
    | none => markAll g windows seen notes
    | some w =>
      let id := note.id track
      if seen.contains id then markAll g windows seen notes
      else mark g w id note.time :: markAll g windows (id :: seen) notes

def place (g : Geometry R) (rows : List (PlacedRow R)) (sections : List (Section R))
    (timeline : Timeline R) : List (Indicator R) :=
  markAll g (RowWindow.ofRows rows sections).toArray [] timeline.notes

end Indicator

end RhythmTiles
