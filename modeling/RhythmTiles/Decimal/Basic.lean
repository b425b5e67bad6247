/-!
# Decimals

A decimal is a whole coefficient times a power of ten.
-/

namespace RhythmTiles

/-- The number `coefficient · 10 ^ exponent`. -/
structure Decimal where
  coefficient : Nat
  exponent : Int
  deriving DecidableEq, Repr

namespace Decimal

def digitCount (n : Nat) : Nat := (Nat.toDigits 10 n).length

/-- The value of a digit; other characters count nothing. -/
def digitValue (c : Char) : Nat := if c.isDigit then c.toNat - '0'.toNat else 0

def ofDigits (digits : List Char) : Nat := digits.foldl (fun n c => 10 * n + digitValue c) 0

/-- Moves trailing zeros of the coefficient into the exponent. -/
def normalize (d : Decimal) : Decimal :=
  if d.coefficient = 0 then ⟨0, 0⟩ else strip d.coefficient d.exponent
where
  strip (coefficient : Nat) (exponent : Int) : Decimal :=
    if coefficient = 0 then ⟨0, 0⟩
    else if coefficient % 10 = 0 then strip (coefficient / 10) (exponent + 1)
    else ⟨coefficient, exponent⟩
  termination_by coefficient

/-- The nearest double. A leading digit beyond the range of doubles settles the answer before any
power of ten is formed. -/
def toFloat (d : Decimal) : Float :=
  let leading : Int := digitCount d.coefficient + d.exponent
  if d.coefficient = 0 then 0
  else if 310 < leading then 1 / 0
  else if leading < -330 then 0
  else Float.ofScientific d.coefficient (d.exponent < 0) d.exponent.natAbs

end Decimal

end RhythmTiles
