/-!
# Base beats

A section's base beats say how long its letters are. One tile is `32 · baseBeats` letter units, and
always a quarter note of 960 ticks, so a letter unit lasts `30 / baseBeats` ticks. Only base beats
for which that is a whole number are supported.
-/

namespace RhythmTiles.BaseBeats

/-- The supported base beats with the ticks of their letter unit. -/
def table : List (Float × Nat) :=
  [(0.125, 240), (0.25, 120), (0.3, 100), (0.375, 80), (0.5, 60), (0.6, 50), (0.75, 40), (1.0, 30),
    (1.2, 25), (1.25, 24), (1.5, 20), (2.0, 15), (2.5, 12), (3.0, 10), (5.0, 6), (6.0, 5),
    (7.5, 4), (10.0, 3), (15.0, 2), (30.0, 1)]

/-- The ticks of a letter unit. A value counts as supported within a billionth. -/
def ticksPerUnit? (baseBeats : Float) : Option Nat :=
  (table.find? fun entry => (entry.1 - baseBeats).abs < 1e-9).map Prod.snd

end RhythmTiles.BaseBeats
