import RhythmTiles.BaseBeats
import RhythmTiles.Binary64
import RhythmTiles.Level.Basic
import RhythmTiles.Part.Basic
import RhythmTiles.Score.Scan

/-!
# The parts of a level

Every score of a section is read into a track, and the tracks of the section make a part. The first
score that cannot be read, by section and then by track, is reported.
-/

namespace RhythmTiles

/-- The track of a score with given base beats at a tempo. The tempo sets the step of ornaments
only. -/
def Score.compile (score : String) (baseBeats bpm : Float) : Except ScoreFault Track :=
  match BaseBeats.ticksPerUnit? baseBeats with
  | none => .error (.misread 0 (.unknownBaseBeats baseBeats))
  | some ticks => Score.read ⟨ticks, Binary64.nearestWord64 (bpm * 32)⟩ score.toList

namespace Music

/-- The tracks of scores. They are counted from `index`. -/
def readTracks (music index : Nat) (baseBeats bpm : Float) :
    List String → Except LevelFault (List Track)
  | [] => .ok []
  | score :: scores => do
    let track ← (Score.compile score baseBeats bpm).mapError (.score music index)
    let tracks ← readTracks music (index + 1) baseBeats bpm scores
    pure (track :: tracks)

def part (index : Nat) (m : Music) (baseBpm : Float) : Except LevelFault (Part Float) := do
  let bpm := scoreTempo (m.tempo baseBpm) m.baseBeats
  let tracks ← readTracks index 0 m.baseBeats bpm m.scores
  pure ⟨bpm, tracks⟩

def parts (index : Nat) (baseBpm : Float) : List Music → Except LevelFault (List (Part Float))
  | [] => .ok []
  | m :: musics => do
    let part ← m.part index baseBpm
    let parts ← parts (index + 1) baseBpm musics
    pure (part :: parts)

end Music

def Level.parts (level : Level) : Except LevelFault (List (Part Float)) :=
  Music.parts 0 level.baseBpm level.musics

end RhythmTiles
