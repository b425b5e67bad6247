import RhythmTiles.Letter
import RhythmTiles.Text.Blank

/-!
# Pieces of a score

The row reading cuts a score at commas and semicolons outside angle brackets, and reads each piece
as one tile: its kind and its duration in letter units.
-/

namespace RhythmTiles

/-- What a tile row shows. -/
inductive TileKind where
  | single
  | double
  | empty
  deriving DecidableEq, Repr

/-- A piece of a score as a tile. -/
structure Piece where
  /-- Letter units. -/
  duration : Nat
  kind : TileKind
  deriving DecidableEq, Repr

namespace Piece

def isRest (p : Piece) : Bool := p.kind == .empty

def isSeparator (c : Char) : Bool := c == ',' || c == ';'

/-- The depth of angle brackets behind a character; it never falls below zero. -/
def depthAfter (depth : Nat) (c : Char) : Nat :=
  if c = '<' then depth + 1 else if c = '>' then depth - 1 else depth

/-- Cuts a text at the separators of depth zero, where `depth` is the depth at its start and
`current` holds the segment being read, last character first. -/
def segments (depth : Nat) (current : List Char) : List Char → List (List Char)
  | [] => [current.reverse]
  | c :: cs =>
    if isSeparator c && depth == 0 then current.reverse :: segments 0 [] cs
    else segments (depthAfter depth c) (c :: current) cs

/-- The pieces of a score: its segments, trimmed, without empty ones. -/
def split (score : List Char) : List (List Char) :=
  ((segments 0 [] score).map Text.trim).filter fun piece => !piece.isEmpty

/-- The text without its last character, if that is `last`. -/
def beforeLast? (last : Char) (cs : List Char) : Option (List Char) :=
  if cs.getLast? = some last then some cs.dropLast else none

/-- The digit and the content of a piece that is a group: a digit before angle brackets. -/
def group? : List Char → Option (Char × List Char)
  | digit :: '<' :: cs =>
    if digit.isDigit then (beforeLast? '>' cs).map fun content => (digit, content) else none
  | _ => none

/-- Reads a piece. A group lasts as long as the letters in it and is double after a five; rest
letters alone are a rest; anything else is single. -/
def ofText (text : List Char) : Piece :=
  let text := Text.trim text
  match group? text with
  | some (digit, content) =>
    ⟨Letter.soundTotal content, if digit = '5' then .double else .single⟩
  | none =>
    if Letter.isRestRun text then ⟨Letter.restTotal text, .empty⟩
    else ⟨Letter.soundTotal text, .single⟩

def ofScore (score : List Char) : List Piece := (split score).map ofText

end Piece

end RhythmTiles
