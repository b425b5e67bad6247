import RhythmTiles.Json.Basic
import RhythmTiles.Json.Source

/-!
# Values of document text

What well-formed document text means. A whole number that fits a 64-bit word stays exact; any other
number is read in two rounded steps, its leading digits and a power of ten, and must not exceed the
range of doubles. A string must name characters, and containers nest only so deep.
-/

namespace RhythmTiles.Json

/-- Takes digits into a word of 64 bits while they fit, and returns the digits left over. -/
def takeWord (word : Nat) : List Char → Nat × List Char
  | [] => (word, [])
  | d :: digits =>
    let longer := 10 * word + Decimal.digitValue d
    if longer < 0x10000000000000000 then takeWord longer digits else (word, d :: digits)

/-- The leading digits of a numeral as a 64-bit word, with the power of ten that restores its size.
Digits behind the point that do not fit are dropped. -/
def leadingWord (n : Decimal.Numeral) : Nat × Int :=
  let (whole, beyond) := takeWord 0 n.whole
  let (word, dropped) := takeWord whole n.fraction
  let taken : Int := n.fraction.length - dropped.length
  (word, n.exponent + beyond.length - taken)

def powerOfTen (n : Nat) : Float := Float.ofScientific 1 false n

/-- Multiplies or divides by a power of ten in one rounded step. Below the least power the value is
brought nearer in steps of the greatest one until it vanishes or the rest fits. -/
def scale? (x : Float) (exponent : Int) : Option Float :=
  if exponent < -308 then
    if x == 0 then some x else scale? (x / powerOfTen 308) (exponent + 308)
  else if exponent < 0 then some (x / powerOfTen exponent.natAbs)
  else if exponent ≤ 308 then
    let scaled := x * powerOfTen exponent.natAbs
    if scaled.isFinite then some scaled else none
  else if x == 0 then some x
  else none
termination_by (-exponent).toNat
decreasing_by omega

def doubleOf? (n : Decimal.Numeral) : Option Float :=
  let (word, exponent) := leadingWord n
  (scale? (Float.ofNat word) exponent).map n.signed

/-- The value of a number. A whole number keeps its exact value in the range of 64-bit words, signed
or not; minus zero is a double. -/
def ofNumeral? (isWhole : Bool) (n : Decimal.Numeral) : Option Json :=
  let size := Decimal.ofDigits n.whole
  if isWhole && !n.negative && size < 0x10000000000000000 then some (.int size)
  else if isWhole && n.negative && 0 < size && size ≤ 0x8000000000000000 then some (.int (-size))
  else (doubleOf? n).map .float

/-- The characters of a string, two escaped code units joining where they form one character. A
surrogate that stands alone names none. -/
def characters? : List StringUnit → Option (List Char)
  | [] => some []
  | .char c :: units => (characters? units).map (c :: ·)
  | .escaped high :: .escaped low :: units =>
    -- a high surrogate asks for a low one behind it
    if 0xd800 ≤ high ∧ high < 0xdc00 then
      if 0xdc00 ≤ low ∧ low < 0xe000 then
        let code := 0x10000 + (high - 0xd800) * 0x400 + (low - 0xdc00)
        (characters? units).map (Char.ofNat code :: ·)
      else none
    else if 0xdc00 ≤ high ∧ high < 0xe000 then none
    else (characters? (.escaped low :: units)).map (Char.ofNat high :: ·)
  | .escaped unit :: units =>
    if 0xd800 ≤ unit ∧ unit < 0xe000 then none
    else (characters? units).map (Char.ofNat unit :: ·)

def text? (units : List StringUnit) : Option String := (characters? units).map String.ofList

mutual

/-- The value of a text in which containers nest at most `depth` deep. -/
def ofSource? (depth : Nat) : Source → Option Json
  | .null => some .null
  | .bool b => some (.bool b)
  | .number isWhole n => ofNumeral? isWhole n
  | .string units => (text? units).map .string
  | .array items =>
    match depth with
    | 0 => none
    | depth + 1 => (itemsOfSource? depth items).map .array
  | .object members =>
    match depth with
    | 0 => none
    | depth + 1 => (membersOfSource? depth members).map ofMembers

def itemsOfSource? (depth : Nat) : List Source → Option (List Json)
  | [] => some []
  | item :: items => do
    let item ← ofSource? depth item
    let items ← itemsOfSource? depth items
    pure (item :: items)

def membersOfSource? (depth : Nat) :
    List (List StringUnit × Source) → Option (List (String × Json))
  | [] => some []
  | (key, value) :: members => do
    let key ← text? key
    let value ← ofSource? depth value
    let members ← membersOfSource? depth members
    pure ((key, value) :: members)

end

end RhythmTiles.Json
