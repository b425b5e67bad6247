import RhythmTiles.Pitch

/-!
# Tracks

A track is a stream of events: notes go on and off, and delays let time pass, in ticks.
`Track.notes` reads the notes back from a stream.
-/

namespace RhythmTiles

def ticksPerQuarter : Nat := 960

inductive Event where
  | on (pitch : Pitch)
  | off (pitch : Pitch)
  /-- Time passes. -/
  | delay (ticks : Nat)
  /-- The place of an event that no longer sounds. -/
  | silent
  deriving DecidableEq, Repr

namespace Event

def ticks : Event → Nat
  | delay t => t
  | _ => 0

def silenced : Event → Event
  | on _ => silent
  | off _ => silent
  | e => e

end Event

/-- The event stream of one score. -/
abbrev Track := List Event

/-- A note of a track, in ticks from the track's start. -/
structure Span where
  pitch : Pitch
  start : Nat
  stop : Nat
  deriving DecidableEq, Repr

namespace Track

def ticks : Track → Nat
  | [] => 0
  | event :: track => event.ticks + ticks track

/-- The track with the same delays and no sound. -/
def silenced (track : Track) : Track := track.map Event.silenced

/-- Takes the most recent open note of a pitch out of the open notes, which are listed from the
most recent on. -/
def closeNote (pitch : Pitch) : List (Pitch × Nat) → Option (Nat × List (Pitch × Nat))
  | [] => none
  | (p, start) :: others =>
    if p = pitch then some (start, others)
    else (closeNote pitch others).map fun (found, rest) => (found, (p, start) :: rest)

/-- Reads notes from time `now` on, with some notes open. Notes are listed as they end. An end
without an open note of its pitch is passed over. -/
def readNotes (now : Nat) (opened : List (Pitch × Nat)) : Track → List Span
  | [] => []
  | .on p :: track => readNotes now ((p, now) :: opened) track
  | .off p :: track =>
    match closeNote p opened with
    | some (start, opened) => ⟨p, start, now⟩ :: readNotes now opened track
    | none => readNotes now opened track
  | .delay t :: track => readNotes (now + t) opened track
  | .silent :: track => readNotes now opened track

/-- The notes of a track, in the order in which they end. -/
def notes (track : Track) : List Span := readNotes 0 [] track

end Track

end RhythmTiles
