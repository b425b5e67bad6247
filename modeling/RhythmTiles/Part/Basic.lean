import RhythmTiles.Track.Trim

/-!
# Parts

A part is the tracks of one music section. In a part that is aligned all tracks are as long as the
first and no note is empty; in parts that are padded all have equally many tracks.
-/

namespace RhythmTiles

/-- The tracks of one section. -/
structure Part (R : Type) where
  bpm : R
  tracks : List Track

namespace Part

variable {R : Type}

/-- The length of the longest track. -/
def ticks (part : Part R) : Nat := (part.tracks.map Track.ticks).foldl max 0

/-- Fits tracks to a reference. They are counted from `index`. -/
def fitTracks (music index : Nat) (reference : Track) :
    List Track → Except LevelFault (List Track)
  | [] => .ok []
  | track :: tracks => do
    let track ← (Track.fit reference track).mapError (.alignment music index)
    let tracks ← fitTracks music (index + 1) reference tracks
    pure (track :: tracks)

/-- The part with all tracks at the length of the first and without empty notes. -/
def align (music : Nat) (part : Part R) : Except LevelFault (Part R) :=
  match part.tracks with
  | [] => .ok part
  | reference :: others => do
    let others ← fitTracks music 1 reference others
    pure { part with tracks := (reference :: others).map Track.silenceEmpty }

def alignAll (index : Nat) : List (Part R) → Except LevelFault (List (Part R))
  | [] => .ok []
  | part :: parts => do
    let part ← part.align index
    let parts ← alignAll (index + 1) parts
    pure (part :: parts)

/-- The greatest number of tracks in a part. -/
def widest (parts : List (Part R)) : Nat := (parts.map fun part => part.tracks.length).foldl max 0

/-- What fills a part up: its last track without sound. -/
def filler (part : Part R) : Track := (part.tracks.getLast?.map Track.silenced).getD []

/-- The part with at least `width` tracks. -/
def pad (width : Nat) (part : Part R) : Part R :=
  { part with
    tracks := part.tracks ++ List.replicate (width - part.tracks.length) part.filler }

/-- The parts, all with as many tracks as the widest. -/
def padAll (parts : List (Part R)) : List (Part R) := parts.map (pad (widest parts))

end Part

end RhythmTiles
