import RhythmTiles.Decimal.Text

/-!
# Faults in a score

Why a score is refused: something at a position of its text cannot be read, or the ticks exceed the
limit that lengths, rests and whole tracks share.
-/

namespace RhythmTiles

/-- The most ticks that a length, a rest or a track may have. -/
def maxTicks : Nat := 0xFFFFFF

/-- What cannot be read in a score. -/
inductive Misreading where
  | unexpectedChar (c : Char)
  | unknownNote (name : String)
  /-- A unit without length letters. -/
  | emptyLength
  /-- The score ends inside a unit. -/
  | unfinishedUnit
  /-- Different kinds of arpeggio and ornament in one chord. -/
  | mixedGlyphs
  | repeatedOrnament
  /-- An ornament that is not between two single notes. -/
  | malformedOrnament
  /-- An ornament on a pitch that is no key. -/
  | unplayableOrnament
  | unknownBaseBeats (baseBeats : Float)
  deriving DecidableEq

def Misreading.message : Misreading → String
  | unexpectedChar c => s!"Unexpected character '{c}'"
  | unknownNote name => s!"Unknown note name '{name}'"
  | emptyLength => "Incomplete unit: empty length code"
  | unfinishedUnit => "Incomplete unit at end of score"
  | mixedGlyphs => "Cannot combine different arpeggio or ornament operators in one chord"
  | repeatedOrnament => "Only one ornament marker is allowed per chord"
  | malformedOrnament => "Ornament must be written as <note>^<note>"
  | unplayableOrnament => "Ornament notes must be real pitches"
  | unknownBaseBeats b => "Unknown baseBeats multiplier " ++ Decimal.floatText .message b

inductive ScoreFault where
  /-- A misreading at a character of the score. -/
  | misread (position : Nat) (cause : Misreading)
  /-- More ticks than the limit. -/
  | overflow (ticks : Nat)
  deriving DecidableEq

/-- Refuses ticks beyond the limit. -/
def checkTicks (ticks : Nat) : Except ScoreFault Nat :=
  if maxTicks < ticks then .error (.overflow ticks) else .ok ticks

end RhythmTiles
