/-!
# Duration and rest letters

A letter stands for a number of letter units, halving from letter to letter: `H` to `P` sound, `Q`
to `Y` are silent.
-/

namespace RhythmTiles.Letter

/-- The units of a letter that sounds. -/
def soundUnits? : Char → Option Nat
  | 'H' => some 256
  | 'I' => some 128
  | 'J' => some 64
  | 'K' => some 32
  | 'L' => some 16
  | 'M' => some 8
  | 'N' => some 4
  | 'O' => some 2
  | 'P' => some 1
  | _ => none

def restUnits? : Char → Option Nat
  | 'Q' => some 256
  | 'R' => some 128
  | 'S' => some 64
  | 'T' => some 32
  | 'U' => some 16
  | 'V' => some 8
  | 'W' => some 4
  | 'X' => some 2
  | 'Y' => some 1
  | _ => none

def units? (c : Char) : Option Nat := (soundUnits? c).or (restUnits? c)

def isRest (c : Char) : Bool := (restUnits? c).isSome

/-- Whether a character is a letter of either kind. -/
def isLength (c : Char) : Bool := (units? c).isSome

/-- The units of all sounding letters of a text. -/
def soundTotal (cs : List Char) : Nat := (cs.filterMap soundUnits?).foldl (· + ·) 0

def restTotal (cs : List Char) : Nat := (cs.filterMap restUnits?).foldl (· + ·) 0

/-- Whether a text is made of rest letters and is not empty. -/
def isRestRun (cs : List Char) : Bool := !cs.isEmpty && cs.all isRest

end RhythmTiles.Letter
