/-!
# Quantities

Times, tempos and pixel lengths are computed with four operations and two comparisons. `Quantity`
names exactly those, so that every formula of the library can be read both in doubles, where it
runs, and in exact rationals, where its laws are stated.
-/

namespace RhythmTiles

/-- A whole number brought into the range of a signed 64-bit word. -/
def clampInt64 (n : Int) : Int := max (-0x8000000000000000) (min 0x7fffffffffffffff n)

/-- What a number needs to serve as a time, a tempo or a length in pixels. -/
class Quantity (R : Type) extends Add R, Sub R, Mul R, Div R, LT R, LE R where
  ofNat : Nat → R
  decidableLT : DecidableLT R
  decidableLE : DecidableLE R
  /-- Neither infinite nor undefined. -/
  isFinite : R → Bool
  /-- The nearest whole number of a signed 64-bit word, a half going away from zero and an
  undefined number to zero. -/
  nearest : R → Int

attribute [reducible, instance] Quantity.decidableLT Quantity.decidableLE

namespace Quantity

variable {R : Type} [Quantity R]

/-- `x`, or `low` when `x` does not exceed it. -/
def atLeast (low x : R) : R := if low < x then x else low

end Quantity

/-- The nearest whole number to a rational, a half going away from zero. -/
def nearestWhole (q : Rat) : Int :=
  if q < 0 then -(1 / 2 - q).floor else (q + 1 / 2).floor

instance : Quantity Rat where
  ofNat n := n
  decidableLT := inferInstance
  decidableLE := inferInstance
  isFinite _ := true
  nearest q := clampInt64 (nearestWhole q)

end RhythmTiles
