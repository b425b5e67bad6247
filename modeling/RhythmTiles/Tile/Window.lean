import RhythmTiles.Tile.Piece

/-!
# Windows of pieces

Pieces follow each other, so each has a window in letter units. A rest of the first score becomes
playable where another score of the section has a note in its window.
-/

namespace RhythmTiles

/-- The time of one piece, in letter units. -/
structure PieceWindow where
  start : Nat
  stop : Nat
  /-- The place of the piece in its score. -/
  index : Nat
  isRest : Bool
  deriving DecidableEq, Repr

namespace PieceWindow

/-- Whether two windows overlap, each without its end. -/
def overlaps (v w : PieceWindow) : Bool := v.start < w.stop && w.start < v.stop

/-- The windows of pieces from a time and a place on. -/
def follow (time index : Nat) : List Piece → List PieceWindow
  | [] => []
  | p :: pieces =>
    ⟨time, time + p.duration, index, p.isRest⟩ :: follow (time + p.duration) (index + 1) pieces

def ofPieces (pieces : List Piece) : List PieceWindow := follow 0 0 pieces

/-- The windows of a score that are no rests. -/
def sounding (score : List Char) : List PieceWindow :=
  (ofPieces (Piece.ofScore score)).filter fun w => !w.isRest

/-- The places of the rests of the first score that a note of another score overlaps. -/
def coveredRests (first : List Piece) (others : List (List Char)) : List Nat :=
  let notes := others.flatMap sounding
  let rests := (ofPieces first).filter PieceWindow.isRest
  (rests.filter fun rest => notes.any fun note => note.overlaps rest).map PieceWindow.index

end PieceWindow

end RhythmTiles
