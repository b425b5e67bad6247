import RhythmTiles.Binary64
import RhythmTiles.Level.Basic
import RhythmTiles.Tile.Window

/-!
# Rows of tiles

Each piece of a section's first score is one row. The rows of all sections follow each other, and a
section remembers which of them are its own and how fast they pass.
-/

namespace RhythmTiles

structure Row where
  kind : TileKind
  /-- Height in base tiles, at least one. -/
  height : Nat
  deriving DecidableEq, Repr

/-- The rows of one section and their speed. -/
structure Section (R : Type) where
  id : Int
  tilesPerSecond : R
  firstRow : Nat
  /-- The row behind the last one. -/
  endRow : Nat
  rowCount : Nat

def Section.containsRow {R : Type} (s : Section R) (row : Nat) : Bool :=
  s.firstRow ≤ row && row < s.endRow

namespace Row

/-- The height of a piece in base tiles: `duration / (32 · baseBeats)` without its fraction, at
least one and within a 32-bit word. -/
def heightOf (duration : Nat) (baseBeats : Float) : Nat :=
  match Binary64.floor? (Float.ofNat duration / (32 * baseBeats)) with
  | some height => if 1 ≤ height then min height.toNat 0xffffffff else 1
  | none => 1

/-- The row of a piece. A covered rest is single. -/
def ofPiece (baseBeats : Float) (covered : Bool) (p : Piece) : Row :=
  ⟨if p.isRest && covered then .single else p.kind, heightOf p.duration baseBeats⟩

def ofMusic (m : Music) : List Row :=
  match m.scores with
  | [] => []
  | first :: others =>
    let pieces := Piece.ofScore first.toList
    let covered := PieceWindow.coveredRests pieces (others.map String.toList)
    pieces.zipIdx.map fun (p, index) => ofPiece m.baseBeats (covered.contains index) p

end Row

/-- The rows of a level and its sections. -/
structure Layout (R : Type) where
  rows : List Row
  sections : List (Section R)

namespace Layout

/-- Lays out sections behind the first `count` rows. -/
def ofMusics (baseBpm : Float) (count : Nat) : List Music → Layout Float
  | [] => ⟨[], []⟩
  | m :: musics =>
    let rows := Row.ofMusic m
    let stop := count + rows.length
    let rest := ofMusics baseBpm stop musics
    ⟨rows ++ rest.rows,
      ⟨m.id, m.tilesPerSecond baseBpm, count, stop, rows.length⟩ :: rest.sections⟩

def ofLevel (level : Level) : Layout Float := ofMusics level.baseBpm 0 level.musics

end Layout

end RhythmTiles
