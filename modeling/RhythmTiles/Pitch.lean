import RhythmTiles.Text.Blank

/-!
# Pitches

A pitch is a key number; middle C is 60. Note names cover the 88 keys of a piano.
-/

namespace RhythmTiles

abbrev Pitch := Nat

namespace Pitch

/-- The pitch of a note that does not sound. -/
def mute : Pitch := 1

/-- Pitches below this one stand for something other than a key. -/
def firstReal : Pitch := 20

/-- The lowest key of a piano. -/
def lowest : Pitch := 21

def highest : Pitch := 108

def isKey (p : Pitch) : Bool := lowest ≤ p && p ≤ highest

/-- The step of a natural note above its C. -/
def step? (letter : Char) : Option Nat :=
  match letter.toLower with
  | 'c' => some 0
  | 'd' => some 2
  | 'e' => some 4
  | 'f' => some 5
  | 'g' => some 7
  | 'a' => some 9
  | 'b' => some 11
  | _ => none

/-- The C of the octave that a digit raises middle C to. -/
def raised? : List Char → Option Nat
  | [] => some 60
  | ['1'] => some 72
  | ['2'] => some 84
  | ['3'] => some 96
  | ['4'] => some 108
  | _ => none

/-- The C of the octave that a dash and a digit lower the C below middle C to. -/
def lowered? : List Char → Option Nat
  | [] => some 48
  | ['-', '1'] => some 36
  | ['-', '2'] => some 24
  | ['-', '3'] => some 12
  | _ => none

/-- The C of the octave of a note. Small letters start at middle C, capital letters an octave
below. -/
def octave? (letter : Char) (suffix : List Char) : Option Nat :=
  if letter.isLower then raised? suffix else lowered? suffix

def natural? : List Char → Option Nat
  | [] => none
  | letter :: suffix => do
    let step ← step? letter
    let octave ← octave? letter suffix
    pure (octave + step)

/-- The pitch of a note name: `mute` or `empty`, or a note with an optional sharp before it. -/
def ofName? (name : List Char) : Option Pitch :=
  if name = "mute".toList ∨ name = "empty".toList then some mute
  else do
    let pitch ←
      match name with
      | '#' :: rest => (natural? rest).map (· + 1)
      | _ => natural? name
    if isKey pitch then some pitch else none

end Pitch

end RhythmTiles
