import RhythmTiles.Pitch

/-!
# Glyphs between notes

Inside a chord's parentheses, glyphs between the notes say how the chord is played.
-/

namespace RhythmTiles

/-- How the notes of an arpeggio spread over its length. -/
inductive Arpeggio where
  | roll
  | spread
  | quick
  deriving DecidableEq, Repr

inductive Glyph where
  /-- The notes sound together. -/
  | separator
  /-- The unit is divided into chords that follow each other. -/
  | divider
  | arpeggio (style : Arpeggio)
  /-- Two notes alternate. -/
  | ornament
  deriving DecidableEq, Repr

def Glyph.ofChar? : Char → Option Glyph
  | '.' => some .separator
  | '~' | '$' => some .divider
  | '@' => some (.arpeggio .roll)
  | '%' => some (.arpeggio .spread)
  | '!' => some (.arpeggio .quick)
  | '^' | '&' => some .ornament
  | _ => none

/-- What stands between a chord's parentheses: a note or a glyph. -/
inductive Entry where
  | pitch (pitch : Pitch)
  | glyph (glyph : Glyph)
  deriving DecidableEq, Repr

namespace Entry

def isDivider (e : Entry) : Bool := e == glyph .divider

def isArpeggio : Entry → Bool
  | glyph (.arpeggio _) => true
  | _ => false

def pitch? : Entry → Option Pitch
  | pitch p => some p
  | glyph _ => none

end Entry

end RhythmTiles
