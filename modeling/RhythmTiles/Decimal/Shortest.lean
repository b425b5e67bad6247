import RhythmTiles.Binary64
import RhythmTiles.Decimal.Basic

/-!
# The fewest digits that read back

The real numbers that round to a double form an interval around it. Among the decimals of one,
two, three, ... digits, the first grid with a point in that interval gives the shortest text that
reads back as the same double; of two points the nearer is taken, and a `Tie` settles the rest.
-/

namespace RhythmTiles.Decimal

/-- Which of two equally near candidates is taken. -/
inductive Tie where
  /-- The greater one. -/
  | up
  /-- The one with an even coefficient. -/
  | even
  deriving DecidableEq, Repr

/-- A positive value `value / unit` and the bounds `low / unit`, `high / unit` of the interval that
rounds to it, all over one denominator. -/
structure Interval where
  low : Nat
  value : Nat
  high : Nat
  unit : Nat
  /-- Whether the bounds themselves round to the value. -/
  closed : Bool

namespace Interval

/-- The interval of a double. Below a power of two the doubles lie twice as dense, so there the
lower bound is nearer. -/
def ofParts (p : Binary64.Parts) : Interval :=
  let below := if p.mantissa = 0x10000000000000 ∧ -1074 < p.exponent then 1 else 2
  let scale := Nat.pow 2 (p.exponent - 2).toNat
  ⟨(4 * p.mantissa - below) * scale, 4 * p.mantissa * scale, (4 * p.mantissa + 2) * scale,
    Nat.pow 2 (2 - p.exponent).toNat, p.mantissa % 2 == 0⟩

/-- The exponent of the value's leading decimal digit. -/
def leadingExponent (i : Interval) : Int :=
  if i.unit ≤ i.value then (digitCount (i.value / i.unit) : Int) - 1
  else -(digitCount ((i.unit - 1) / i.value) : Int)

/-- Whether a multiple of `step` over the unit lies in the interval. -/
def admits (i : Interval) (multiple : Nat) : Bool :=
  if i.closed then i.low ≤ multiple && multiple ≤ i.high
  else i.low < multiple && multiple < i.high

/-- The better of the value's two neighbours on the grid of multiples of `10 ^ exponent`, if one of
them lies in the interval. -/
def onGrid? (i : Interval) (tie : Tie) (exponent : Int) : Option Decimal :=
  let widened := Nat.pow 10 (-exponent).toNat
  let step := i.unit * Nat.pow 10 exponent.toNat
  let scaled : Interval :=
    ⟨i.low * widened, i.value * widened, i.high * widened, i.unit, i.closed⟩
  let below := scaled.value / step
  let gapBelow := scaled.value - below * step
  let gapAbove := (below + 1) * step - scaled.value
  let lower := scaled.admits (below * step)
  let upper := scaled.admits ((below + 1) * step)
  let takeUpper : Bool :=
    -- the value lies in the middle
    if gapAbove = gapBelow then
      match tie with
      | .up => true
      | .even => below % 2 == 1
    else gapAbove < gapBelow
  if lower && (!upper || !takeUpper) then some ⟨below, exponent⟩
  else if upper then some ⟨below + 1, exponent⟩
  else none

end Interval

/-- The shortest decimal that reads back as the positive double with these parts. Seventeen digits
always suffice. -/
def shortest (tie : Tie) (p : Binary64.Parts) : Decimal :=
  let interval := Interval.ofParts p
  let leading := interval.leadingExponent
  let found := (List.range 17).findSome? fun (n : Nat) => interval.onGrid? tie (leading - n)
  (found.getD ⟨0, 0⟩).normalize

end RhythmTiles.Decimal
