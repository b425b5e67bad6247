import RhythmTiles.Chord
import RhythmTiles.Score.Grammar

/-!
# Reading a score

One pass over the characters of a score turns it into a track. `Scan` is what the reader has in hand
between two characters; `Scan.step` follows the grammar for one of them. Units and rests are checked
against the tick limit as they grow, and so is the whole track.
-/

namespace RhythmTiles.Score

/-- What scales a score to time. -/
structure Meter where
  /-- The ticks of a letter unit. -/
  ticksPerUnit : Nat
  /-- The ticks from which ornaments take their steps. -/
  ornamentTotal : Nat
  deriving DecidableEq, Repr

structure Scan where
  mode : Mode := .idle
  /-- The note name being read. -/
  name : List Char := []
  nameStart : Nat := 0
  /-- The notes and glyphs of the chord being read. -/
  pending : List Entry := []
  lengthUnits : Nat := 0
  restUnits : Nat := 0
  /-- The ticks of all units and rests so far. -/
  elapsed : Nat := 0
  events : Array Event := #[]

namespace Scan

/-- Ends the note name being read, if there is one. A mute note leaves no entry. -/
def flushName (s : Scan) : Except ScoreFault Scan :=
  if s.name.isEmpty then .ok s
  else
    match Pitch.ofName? s.name with
    | none => .error (.misread s.nameStart (.unknownNote (String.ofList s.name)))
    | some p =>
      .ok { s with
        name := []
        pending := if p = Pitch.mute then s.pending else s.pending ++ [.pitch p] }

def advance (s : Scan) (ticks : Nat) : Except ScoreFault Scan := do
  let elapsed ← checkTicks (s.elapsed + ticks)
  pure { s with elapsed }

/-- Ends a unit: its chord is expanded over its length. -/
def finishUnit (meter : Meter) (s : Scan) (position : Nat) : Except ScoreFault Scan := do
  if s.lengthUnits = 0 then .error (.misread position .emptyLength)
  let length ← checkTicks (s.lengthUnits * meter.ticksPerUnit)
  let s ← s.advance length
  let expanded ← Chord.expand s.pending length meter.ornamentTotal position
  pure { s with events := s.events ++ expanded.toArray, pending := [], lengthUnits := 0 }

def finishRest (meter : Meter) (s : Scan) : Except ScoreFault Scan := do
  let ticks ← checkTicks (s.restUnits * meter.ticksPerUnit)
  let s ← s.advance ticks
  pure { s with events := s.events.push (.delay ticks), restUnits := 0 }

def apply (meter : Meter) (s : Scan) (position : Nat) : Action → Except ScoreFault Scan
  | .skip => .ok s
  | .beginChord => .ok { s with pending := [], name := [], lengthUnits := 0 }
  | .nameChar c =>
    .ok { s with
      name := s.name ++ [c]
      nameStart := if s.name.isEmpty then position else s.nameStart }
  | .flushName => s.flushName
  | .pushGlyph g => do
    let s ← s.flushName
    pure { s with pending := s.pending ++ [.glyph g] }
  | .addLength c => do
    -- rest letters count, too
    let lengthUnits := s.lengthUnits + (Letter.units? c).getD 0
    let _ ← checkTicks (lengthUnits * meter.ticksPerUnit)
    pure { s with lengthUnits }
  | .finishUnit => s.finishUnit meter position
  | .addRest c => do
    let restUnits := s.restUnits + (Letter.restUnits? c).getD 0
    -- a rest is refused as soon as it is too long, not where it ends
    let _ ← checkTicks (restUnits * meter.ticksPerUnit)
    pure { s with restUnits }
  | .finishRest => s.finishRest meter

def step (meter : Meter) (s : Scan) (position : Nat) (c : Char) : Except ScoreFault Scan :=
  match transition s.mode (.ofChar c) with
  | none => .error (.misread position (.unexpectedChar c))
  | some (mode, action) => do
    let s ← s.apply meter position action
    pure { s with mode }

def run (meter : Meter) (s : Scan) (position : Nat) : List Char → Except ScoreFault Scan
  | [] => .ok s
  | c :: cs => do
    let s ← s.step meter position c
    s.run meter (position + 1) cs

/-- The events at the end of a text. A rest may end there, a unit may not stay open. -/
def finish (meter : Meter) (s : Scan) (length : Nat) : Except ScoreFault Track :=
  match s.mode with
  | .idle | .closed => .ok s.events.toList
  | .rest => do
    let s ← s.finishRest meter
    pure s.events.toList
  | _ => .error (.misread length .unfinishedUnit)

end Scan

def read (meter : Meter) (score : List Char) : Except ScoreFault Track := do
  let s ← Scan.run meter {} 0 score
  s.finish meter score.length

end RhythmTiles.Score
