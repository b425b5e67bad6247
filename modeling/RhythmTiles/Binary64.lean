import RhythmTiles.Quantity

/-!
# Doubles as whole numbers

A finite double is `± mantissa · 2 ^ exponent`. From that form the library rounds doubles and
prints them in whole-number arithmetic.
-/

namespace RhythmTiles.Binary64

/-- A finite double, taken apart: `± mantissa · 2 ^ exponent`. -/
structure Parts where
  negative : Bool
  mantissa : Nat
  exponent : Int
  deriving DecidableEq, Repr

/-- The parts of a finite double; infinities and undefined values have none. -/
def parts? (x : Float) : Option Parts :=
  let bits : Nat := x.toBits.toNat
  let fraction : Nat := bits % 0x10000000000000
  let biased : Nat := bits / 0x10000000000000 % 0x800
  let negative : Bool := 0x8000000000000000 ≤ bits
  if biased = 2047 then none
  -- the least exponent, without the implicit bit
  else if biased = 0 then some ⟨negative, fraction, -1074⟩
  else some ⟨negative, 0x10000000000000 + fraction, (biased : Int) - 1075⟩

namespace Parts

def signed (p : Parts) : Int := if p.negative then -p.mantissa else p.mantissa

/-- The numerator of the value over the denominator `den`. -/
def num (p : Parts) : Int := p.signed * Nat.pow 2 p.exponent.toNat

def den (p : Parts) : Nat := Nat.pow 2 (-p.exponent).toNat

def floor (p : Parts) : Int := p.num / p.den

/-- The nearest whole number, a half going away from zero. -/
def nearest (p : Parts) : Int :=
  let magnitude : Int := (2 * p.num.natAbs + p.den) / (2 * p.den)
  if p.negative then -magnitude else magnitude

def isWhole (p : Parts) : Bool := p.num % p.den == 0

end Parts

def floor? (x : Float) : Option Int := (parts? x).map Parts.floor

/-- The whole number that a double is, if it is one. -/
def whole? (x : Float) : Option Int :=
  (parts? x).bind fun p => if p.isWhole then some p.floor else none

/-- The nearest whole number of a signed 64-bit word, a half going away from zero. -/
def nearestInt64 (x : Float) : Int :=
  match parts? x with
  | some p => clampInt64 p.nearest
  | none => if x < 0 then -0x8000000000000000 else if 0 < x then 0x7fffffffffffffff else 0

def nearestWord64 (x : Float) : Nat :=
  match parts? x with
  | some p => min 0xffffffffffffffff p.nearest.toNat
  | none => if 0 < x then 0xffffffffffffffff else 0

end RhythmTiles.Binary64

namespace RhythmTiles

instance : Quantity Float where
  ofNat := Float.ofNat
  decidableLT := inferInstance
  decidableLE := inferInstance
  isFinite := Float.isFinite
  nearest := Binary64.nearestInt64

end RhythmTiles
