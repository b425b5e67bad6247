import RhythmTiles.Glyph
import RhythmTiles.Letter

/-!
# The grammar of a score

A score is a row of units `(notes)[letters]` and of rests, with separators and filler between them.
The grammar is a finite machine: `transition` says, for a mode and the class of the next character,
what is done and which mode follows; where it says nothing the character is not allowed.
-/

namespace RhythmTiles.Score

/-- Where a reader of a score stands. -/
inductive Mode where
  /-- Between units. -/
  | idle
  /-- In a row of rest letters. -/
  | rest
  /-- Between parentheses. -/
  | notes
  /-- Behind the parentheses, before the length. -/
  | chordClosed
  /-- Between square brackets. -/
  | length
  /-- Behind a unit, before a separator. -/
  | closed
  deriving DecidableEq, Repr

/-- The characters that the grammar tells apart. -/
inductive CharClass where
  | whitespace
  | digit (c : Char)
  /-- Angle brackets and braces, which the row reading uses. -/
  | filler
  | separator
  | chordOpen
  | chordClose
  | lengthOpen
  | lengthClose
  | glyph (glyph : Glyph)
  | letter (c : Char)
  /-- The marks inside note names. -/
  | nameMark (c : Char)
  | other (c : Char)
  deriving DecidableEq, Repr

/-- The class of a character that is no glyph. -/
def CharClass.ofPlain (c : Char) : CharClass :=
  if Text.isBlank c then whitespace
  else if c.isDigit then digit c
  else if c = '<' ∨ c = '>' ∨ c = '\x7b' ∨ c = '\x7d' then filler
  else if c = ',' ∨ c = ';' then separator
  else if c = '(' then chordOpen
  else if c = ')' then chordClose
  else if c = '[' then lengthOpen
  else if c = ']' then lengthClose
  else if c = '#' ∨ c = '-' then nameMark c
  else if c.isAlpha then letter c
  else other c

def CharClass.ofChar (c : Char) : CharClass :=
  match Glyph.ofChar? c with
  | some g => glyph g
  | none => ofPlain c

inductive Action where
  | skip
  | beginChord
  | nameChar (c : Char)
  | flushName
  | pushGlyph (glyph : Glyph)
  | addLength (c : Char)
  | finishUnit
  | addRest (c : Char)
  | finishRest
  deriving DecidableEq, Repr

/-- Whether a class may stand anywhere between units. -/
def CharClass.isFill : CharClass → Bool
  | whitespace | digit _ | filler => true
  | _ => false

def transition (mode : Mode) (cls : CharClass) : Option (Mode × Action) :=
  match mode with
  | .idle =>
    match cls with
    | .chordOpen => some (.notes, .beginChord)
    | .letter c => if Letter.isRest c then some (.rest, .addRest c) else none
    | .separator => some (.idle, .skip)
    | cls => if cls.isFill then some (.idle, .skip) else none
  | .rest =>
    match cls with
    | .letter c => if Letter.isRest c then some (.rest, .addRest c) else none
    | .separator => some (.idle, .finishRest)
    -- a unit may follow a gap, without a separator
    | cls => if cls.isFill then some (.idle, .finishRest) else none
  | .notes =>
    match cls with
    -- a digit belongs to a name here, and is fill between units
    | .letter c | .digit c | .nameMark c => some (.notes, .nameChar c)
    | .whitespace => some (.notes, .flushName)
    | .glyph g => some (.notes, .pushGlyph g)
    | .chordClose => some (.chordClosed, .flushName)
    | _ => none
  | .chordClosed =>
    match cls with
    | .whitespace => some (.chordClosed, .skip)
    | .lengthOpen => some (.length, .skip)
    | _ => none
  | .length =>
    match cls with
    | .letter c => if Letter.isLength c then some (.length, .addLength c) else none
    | .whitespace => some (.length, .skip)
    | .lengthClose => some (.closed, .finishUnit)
    | _ => none
  | .closed =>
    match cls with
    | .separator => some (.idle, .skip)
    | cls => if cls.isFill then some (.closed, .skip) else none

end RhythmTiles.Score
