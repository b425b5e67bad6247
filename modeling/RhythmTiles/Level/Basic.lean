import RhythmTiles.Json.Basic

/-!
# Levels

A level is a base tempo and a list of music sections. A section has parallel scores, one a track,
and its own tempo or the level's.
-/

namespace RhythmTiles

/-- A music section of a level. -/
structure Music where
  id : Int
  /-- Beats per minute, where the section has its own. -/
  bpm : Option Float
  baseBeats : Float
  scores : List String

namespace Music

def tempo (m : Music) (baseBpm : Float) : Float := m.bpm.getD baseBpm

def tilesPerSecond (m : Music) (baseBpm : Float) : Float := m.tempo baseBpm / m.baseBeats / 60

/-- The tempo of a score in letter units: thirty times the tempo over the base beats. -/
def scoreTempo (bpm baseBeats : Float) : Float := bpm * 30 / baseBeats

end Music

structure Level where
  baseBpm : Float
  musics : List Music
  /-- A value that is carried through as it is. -/
  audition : Option Json

end RhythmTiles
