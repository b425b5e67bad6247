import RhythmTiles.Level.Part
import RhythmTiles.Timeline.Basic

/-!
# The timeline of a level

The parts of a level are aligned, padded and laid end to end.
-/

namespace RhythmTiles

def Level.timeline (level : Level) : Except LevelFault (Timeline Float) := do
  let parts ← level.parts
  let aligned ← Part.alignAll 0 parts
  pure (Timeline.ofParts (Part.padAll aligned))

end RhythmTiles
