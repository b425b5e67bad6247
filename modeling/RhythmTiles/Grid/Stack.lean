import RhythmTiles.Quantity
import RhythmTiles.Tile.Row

/-!
# Rows on the grid

Rows are stacked upward from the bottom of the viewport, above a start row of one base tile. Pixel
coordinates grow downward.
-/

namespace RhythmTiles

/-- The pixel measures of the play area. -/
structure Geometry (R : Type) where
  viewportHeight : R
  playAreaWidth : R
  /-- The height of a row of height one. -/
  baseTileHeight : R
  indicatorSize : R
  /-- How far every indicator is lifted. -/
  indicatorOffset : R

structure PlacedRow (R : Type) where
  index : Nat
  isStart : Bool
  /-- The coordinate of the lower edge. -/
  bottom : R
  height : R
  /-- Height in base tiles. -/
  tiles : Nat
  tileCount : Nat

def TileKind.tileCount : TileKind → Nat
  | empty => 0
  | single => 1
  | double => 2

namespace PlacedRow

variable {R : Type} [Quantity R]

/-- The row at the bottom of the viewport. -/
def start (g : Geometry R) : PlacedRow R :=
  ⟨0, true, g.viewportHeight, g.baseTileHeight, 1, 1⟩

def pixelHeight (g : Geometry R) (row : Row) : R := Quantity.ofNat row.height * g.baseTileHeight

/-- Places rows upward from a lower edge. They are counted from `index`. -/
def stackFrom (g : Geometry R) (index : Nat) (bottom : R) : List Row → List (PlacedRow R)
  | [] => []
  | row :: rows =>
    let height := pixelHeight g row
    ⟨index, false, bottom, height, row.height, row.kind.tileCount⟩ ::
      stackFrom g (index + 1) (bottom - height) rows

/-- The start row with the given rows on top of it. -/
def stack (g : Geometry R) (rows : List Row) : List (PlacedRow R) :=
  start g :: stackFrom g 1 (g.viewportHeight - g.baseTileHeight) rows

end PlacedRow

end RhythmTiles
