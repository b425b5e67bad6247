/-!
# Exact shares

Dividing a length into whole ticks leaves remainders. A `Carry` keeps them, and gives a tick back as
soon as they make a whole one, so that equal shares of a length add up to the length.
-/

namespace RhythmTiles

/-- What is left over from the divisions so far. -/
structure Carry where
  remainder : Nat := 0
  deriving DecidableEq, Repr

namespace Carry

/-- The next share of `total` over `divisor`, and what is left over then. Nothing is shared over
zero. -/
def divide (carry : Carry) (total divisor : Nat) : Nat × Carry :=
  let left := carry.remainder + total % divisor
  if divisor = 0 then (0, carry)
  else if divisor ≤ left then (total / divisor + 1, ⟨left - divisor⟩)
  else (total / divisor, ⟨left⟩)

/-- The shares of successive divisions, and what is left over after them. -/
def divideAll (carry : Carry) : List (Nat × Nat) → List Nat × Carry
  | [] => ([], carry)
  | (total, divisor) :: calls =>
    let (share, carry) := carry.divide total divisor
    let (shares, carry) := carry.divideAll calls
    (share :: shares, carry)

def shares (total count : Nat) : List Nat :=
  (divideAll {} (List.replicate count (total, count))).1

end Carry

end RhythmTiles
