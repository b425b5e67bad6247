import RhythmTiles.Decimal.Numeral
import RhythmTiles.Text.Hex

/-!
# Document text

The grammar of document text. `Source.ofText?` accepts exactly the well-formed texts and keeps
numbers and strings as written: whether a number fits a double, or an escape names a character, is
asked only of the parts that are used.
-/

namespace RhythmTiles.Json

/-- One element of a quoted string: a character, or a code unit written as an escape. -/
inductive StringUnit where
  | char (c : Char)
  | escaped (unit : Nat)
  deriving DecidableEq, Repr

/-- A well-formed text, with its numbers and strings as written. -/
inductive Source where
  | null
  | bool (value : Bool)
  /-- A numeral, and whether it has neither point nor exponent. -/
  | number (isWhole : Bool) (numeral : Decimal.Numeral)
  | string (units : List StringUnit)
  | array (items : List Source)
  | object (members : List (List StringUnit × Source))
  deriving Inhabited

/-- The white space allowed between the parts of a document. -/
def isGap (c : Char) : Bool := c == ' ' || c == '\t' || c == '\n' || c == '\r'

def skipGap (cs : List Char) : List Char := cs.dropWhile isGap

def escapedChar? (c : Char) : Option Char :=
  match c with
  | '"' => some '"'
  | '\\' => some '\\'
  | '/' => some '/'
  | 'b' => some '\u0008'
  | 'f' => some '\u000c'
  | 'n' => some '\n'
  | 'r' => some '\r'
  | 't' => some '\t'
  | _ => none

/-- Reads a string behind its opening quote, through its closing quote. -/
def readUnits : List Char → Option (List StringUnit × List Char)
  | [] => none
  | '"' :: cs => some ([], cs)
  | '\\' :: 'u' :: a :: b :: c :: d :: cs => do
    let unit ← Text.ofHex? [a, b, c, d]
    let (units, rest) ← readUnits cs
    pure (.escaped unit :: units, rest)
  | '\\' :: c :: cs => do
    let c ← escapedChar? c
    let (units, rest) ← readUnits cs
    pure (.char c :: units, rest)
  | c :: cs =>
    if c < ' ' ∨ c = '\\' then none
    else do
      let (units, rest) ← readUnits cs
      pure (.char c :: units, rest)

/-- Reads the digits of a whole part; zero stands alone. -/
def readWhole : List Char → Option (List Char × List Char)
  | '0' :: cs => if (cs.head?.map Char.isDigit).getD false then none else some (['0'], cs)
  | cs => if (Decimal.spanDigits cs).1.isEmpty then none else some (Decimal.spanDigits cs)

/-- Reads a point with at least one digit behind it, if there is a point. -/
def readFraction : List Char → Option (List Char × List Char)
  | '.' :: cs => if (Decimal.spanDigits cs).1.isEmpty then none else some (Decimal.spanDigits cs)
  | cs => some ([], cs)

def readNumber (cs : List Char) : Option (Source × List Char) := do
  let (negative, cs) := Decimal.spanMinus cs
  let (whole, afterWhole) ← readWhole cs
  let (fraction, afterFraction) ← readFraction afterWhole
  let (exponent, rest) ← Decimal.readExponent afterFraction
  -- neither a point nor an exponent has been read
  let isWhole := fraction.isEmpty && rest.length == afterWhole.length
  pure (.number isWhole ⟨negative, whole, fraction, exponent⟩, rest)

/-- Reads one of the three words. -/
def readWord (cs : List Char) : Option (Source × List Char) :=
  let word := fun (text : String) (value : Source) =>
    (text.toList.isPrefixOf? cs).map fun rest => (value, rest)
  ((word "null" .null).or (word "true" (.bool true))).or (word "false" (.bool false))

mutual

/-- Reads a value. The fuel bounds the steps; two for every character are enough. -/
def readValue : Nat → List Char → Option (Source × List Char)
  | 0, _ => none
  | fuel + 1, cs =>
    match skipGap cs with
    | '"' :: cs => (readUnits cs).map fun (units, rest) => (.string units, rest)
    | '[' :: cs =>
      match skipGap cs with
      | ']' :: rest => some (.array [], rest)
      | cs => (readItems fuel cs).map fun (items, rest) => (.array items, rest)
    | '\x7b' :: cs =>
      match skipGap cs with
      | '\x7d' :: rest => some (.object [], rest)
      | cs => (readMembers fuel cs).map fun (members, rest) => (.object members, rest)
    | cs => (readWord cs).or (readNumber cs)

def readItems : Nat → List Char → Option (List Source × List Char)
  | 0, _ => none
  | fuel + 1, cs =>
    match readValue fuel cs with
    | none => none
    | some (item, rest) =>
      match skipGap rest with
      | ',' :: rest => (readItems fuel rest).map fun (items, rest) => (item :: items, rest)
      | ']' :: rest => some ([item], rest)
      | _ => none

def readMembers : Nat → List Char → Option (List (List StringUnit × Source) × List Char)
  | 0, _ => none
  | fuel + 1, cs =>
    match skipGap cs with
    | '"' :: cs =>
      match readUnits cs with
      | none => none
      | some (key, rest) =>
        match skipGap rest with
        | ':' :: rest =>
          match readValue fuel rest with
          | none => none
          | some (value, rest) =>
            match skipGap rest with
            | ',' :: rest =>
              (readMembers fuel rest).map fun (members, rest) => ((key, value) :: members, rest)
            | '\x7d' :: rest => some ([(key, value)], rest)
            | _ => none
        | _ => none
    | _ => none

end

def Source.ofText? (text : List Char) : Option Source :=
  match readValue (2 * text.length + 2) text with
  | some (source, rest) => if (skipGap rest).isEmpty then some source else none
  | none => none

end RhythmTiles.Json
