import RhythmTiles.Part.Basic
import RhythmTiles.Timeline.Tempo

/-!
# Timelines

The timeline of a level holds every note with its ticks and its seconds, and the tempo map between
the two. `Timeline.ofParts` lays parts end to end.
-/

namespace RhythmTiles

structure Note (R : Type) where
  pitch : Pitch
  startTicks : Nat
  durationTicks : Nat
  /-- Seconds at the start. -/
  time : R
  /-- Seconds from start to end. -/
  duration : R

/-- The notes of one track over all parts. -/
structure TimelineTrack (R : Type) where
  channel : Nat
  notes : List (Note R)

/-- The notes of a level and its tempo map. -/
structure Timeline (R : Type) where
  ticksPerQuarter : Nat
  tempos : List (TempoChange R)
  tracks : List (TimelineTrack R)

namespace Timeline

variable {R : Type}

def empty : Timeline R := ⟨RhythmTiles.ticksPerQuarter, [], []⟩

/-- Whether no track has a note. -/
def isEmpty (t : Timeline R) : Bool := t.tracks.all fun track => track.notes.isEmpty

def noteCount (t : Timeline R) : Nat :=
  (t.tracks.map fun track => track.notes.length).foldl (· + ·) 0

/-- Every note with the place of its track, track by track. -/
def notes (t : Timeline R) : List (Nat × Note R) :=
  t.tracks.zipIdx.flatMap fun (track, index) => track.notes.map fun note => (index, note)

/-- Parts with the tick at which each starts. -/
def placeParts (start : Nat) : List (Part R) → List (Nat × Part R)
  | [] => []
  | part :: parts => (start, part) :: placeParts (start + part.ticks) parts

/-- The notes of track `index` over all parts, by start; notes that start together keep the order in
which they end. -/
def spansOf (index : Nat) (placed : List (Nat × Part R)) : List Span :=
  let spans := placed.flatMap fun (start, part) =>
    ((part.tracks[index]?.map Track.notes).getD []).map fun span =>
      { span with start := start + span.start, stop := start + span.stop }
  spans.mergeSort fun a b => a.start ≤ b.start

variable [Quantity R]

/-- The tempo map of parts: one change at the start of each, at a thirtieth of its tempo. -/
def temposOf (placed : List (Nat × Part R)) : List (TempoChange R) :=
  let untimed := (placed.map fun (start, part) =>
    (⟨start, part.bpm / Quantity.ofNat 30, Quantity.ofNat 0⟩ : TempoChange R))
  -- a change is timed by the changes before it, so they are put in order first
  let sorted := untimed.mergeSort fun a b => a.ticks ≤ b.ticks
  sorted.map fun change =>
    { change with
      time := TempoChange.secondsAt sorted change.ticks RhythmTiles.ticksPerQuarter }

/-- A note with its seconds under a tempo map. -/
def timeSpan (tempos : List (TempoChange R)) (span : Span) : Note R :=
  let time := TempoChange.secondsAt tempos span.start RhythmTiles.ticksPerQuarter
  let stop := TempoChange.secondsAt tempos span.stop RhythmTiles.ticksPerQuarter
  ⟨span.pitch, span.start, span.stop - span.start, time, stop - time⟩

/-- The timeline of parts that follow each other, each as long as its longest track. -/
def ofParts (parts : List (Part R)) : Timeline R :=
  let placed := placeParts 0 parts
  let tempos := temposOf placed
  ⟨RhythmTiles.ticksPerQuarter, tempos,
    (List.range (Part.widest parts)).map fun index =>
      ⟨index, (spansOf index placed).map (timeSpan tempos)⟩⟩

end Timeline

end RhythmTiles
