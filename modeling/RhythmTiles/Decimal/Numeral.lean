import RhythmTiles.Decimal.Basic
import RhythmTiles.Text.Blank

/-!
# Numerals

A numeral is a number as it is written: a sign, digits before and after a point, an exponent. The
readers of texts, documents and settings share its pieces and differ in what they demand of them.
-/

namespace RhythmTiles.Decimal

structure Numeral where
  negative : Bool
  whole : List Char
  fraction : List Char
  exponent : Int
  deriving DecidableEq, Repr

namespace Numeral

/-- The number without its sign. -/
def magnitude (n : Numeral) : Decimal :=
  ⟨ofDigits (n.whole ++ n.fraction), n.exponent - n.fraction.length⟩

/-- Puts the sign back; zero has one too. -/
def signed (n : Numeral) (x : Float) : Float := if n.negative then -x else x

def toFloat (n : Numeral) : Float := n.signed n.magnitude.toFloat

end Numeral

def spanDigits (cs : List Char) : List Char × List Char :=
  (cs.takeWhile Char.isDigit, cs.dropWhile Char.isDigit)

def spanMinus : List Char → Bool × List Char
  | '-' :: cs => (true, cs)
  | cs => (false, cs)

/-- Splits off a sign of either kind. -/
def spanSign : List Char → Bool × List Char
  | '+' :: cs => (false, cs)
  | cs => spanMinus cs

/-- Reads the digits of an exponent behind its mark and optional sign. -/
def readExponentDigits (cs : List Char) : Option (Int × List Char) :=
  let (negative, cs) := spanSign cs
  match spanDigits cs with
  | ([], _) => none
  | (digits, rest) =>
    let size : Int := ofDigits digits
    some (if negative then -size else size, rest)

/-- Reads an exponent if one is marked; without a mark it is zero. -/
def readExponent : List Char → Option (Int × List Char)
  | 'e' :: cs | 'E' :: cs => readExponentDigits cs
  | cs => some (0, cs)

/-- Splits off a point and the digits behind it. -/
def spanFraction : List Char → List Char × List Char
  | '.' :: cs => spanDigits cs
  | cs => ([], cs)

/-- The words for numbers without digits, in any case. -/
def special? (cs : List Char) : Option Float :=
  let word := String.ofList (cs.map Char.toLower)
  if word = "inf" ∨ word = "infinity" then some (1 / 0)
  else if word = "nan" then some (0 / 0)
  else none

/-- The numeral that a whole text is: a sign, digits on at least one side of a point, an exponent. -/
def numeral? (cs : List Char) : Option Numeral :=
  let (negative, cs) := spanSign cs
  let (whole, cs) := spanDigits cs
  let (fraction, cs) := spanFraction cs
  if whole.isEmpty && fraction.isEmpty then none
  else
    match readExponent cs with
    | some (exponent, []) => some ⟨negative, whole, fraction, exponent⟩
    | _ => none

/-- The double that a whole text is: a numeral, or a signed word for a number without digits. -/
def floatOfText? (cs : List Char) : Option Float :=
  match special? (spanSign cs).2 with
  | some x => some (if (spanSign cs).1 then -x else x)
  | none => (numeral? cs).map Numeral.toFloat

end RhythmTiles.Decimal
