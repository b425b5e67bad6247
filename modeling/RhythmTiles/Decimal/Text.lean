import RhythmTiles.Decimal.Shortest

/-!
# Doubles as text

Two written forms of a double are in use: the one inside messages, which never has an exponent, and
the one inside documents. Both show the fewest digits that read back.
-/

namespace RhythmTiles.Decimal

/-- The decisions that a written form of doubles takes. -/
structure TextStyle where
  tie : Tie
  /-- The leading exponents, from the first to the last, that are written without exponent. -/
  positional : Option (Int × Int)
  /-- Whether a whole number keeps `.0`. -/
  pointZero : Bool
  undefinedText : String
  infinityText : String
  minusInfinityText : String

/-- Messages write every number out in full, and whole numbers without a point. -/
def TextStyle.message : TextStyle :=
  ⟨.up, none, false, "NaN", "inf", "-inf"⟩

/-- Documents keep the point, turn to exponents below `1e-5` and from `1e16` up, and have no
infinities. -/
def TextStyle.document : TextStyle :=
  ⟨.even, some (-5, 15), true, "null", "null", "null"⟩

/-- Digits and zeros in their places. -/
def positionalText (style : TextStyle) (digits : String) (exponent : Int) : String :=
  let places := (-exponent).toNat
  if 0 ≤ exponent then
    digits ++ String.ofList (List.replicate exponent.toNat '0') ++ (if style.pointZero then ".0" else "")
  else if places < digits.length then
    String.ofList (digits.toList.take (digits.length - places)) ++ "."
      ++ String.ofList (digits.toList.drop (digits.length - places))
  else
    "0." ++ String.ofList (List.replicate (places - digits.length) '0') ++ digits

/-- One digit, the others behind a point, and the exponent with its sign. -/
def exponentText (digits : String) (leading : Int) : String :=
  let rest := digits.toList.drop 1
  String.ofList (digits.toList.take 1) ++ (if rest.isEmpty then "" else "." ++ String.ofList rest)
    ++ (if leading < 0 then "e-" else "e+") ++ toString leading.natAbs

def text (style : TextStyle) (d : Decimal) : String :=
  let digits := toString d.coefficient
  let leading := (digits.length : Int) + d.exponent - 1
  match style.positional with
  | some (first, last) =>
    if first ≤ leading ∧ leading ≤ last then positionalText style digits d.exponent
    else exponentText digits leading
  | none => positionalText style digits d.exponent

def floatText (style : TextStyle) (x : Float) : String :=
  match Binary64.parts? x with
  | some p =>
    let magnitude : Decimal := if p.mantissa = 0 then ⟨0, 0⟩ else shortest style.tie p
    (if p.negative then "-" else "") ++ magnitude.text style
  | none =>
    if 0 < x then style.infinityText
    else if x < 0 then style.minusInfinityText
    else style.undefinedText

end RhythmTiles.Decimal
