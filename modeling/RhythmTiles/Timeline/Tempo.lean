import RhythmTiles.Quantity

/-!
# Tempo maps

A tempo map lists tempo changes by tick. The time of a tick is the sum, over the segments before it,
of the segment's ticks at the segment's tempo.
-/

namespace RhythmTiles

structure TempoChange (R : Type) where
  ticks : Nat
  /-- Quarter notes a minute from here on. -/
  bpm : R
  /-- Seconds at `ticks`. -/
  time : R

namespace TempoChange

variable {R : Type} [Quantity R]

def segmentSeconds (ticks perQuarter : Nat) (bpm : R) : R :=
  Quantity.ofNat ticks / Quantity.ofNat perQuarter * Quantity.ofNat 60 / bpm

/-- Adds to `seconds` the time of the segments before a tick. -/
def addSegments (perQuarter ticks : Nat) (seconds : R) : List (TempoChange R) → R
  | [] => seconds
  | change :: changes =>
    if ticks ≤ change.ticks then seconds
    else
      let stop := (changes.head?.map fun next => min next.ticks ticks).getD ticks
      addSegments perQuarter ticks
        (seconds + segmentSeconds (stop - change.ticks) perQuarter change.bpm) changes

/-- The seconds at a tick under a tempo map that is sorted by ticks. -/
def secondsAt (changes : List (TempoChange R)) (ticks perQuarter : Nat) : R :=
  addSegments perQuarter ticks (Quantity.ofNat 0) changes

end TempoChange

end RhythmTiles
