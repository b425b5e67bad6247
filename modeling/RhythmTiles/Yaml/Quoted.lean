import RhythmTiles.Yaml.Gap
import RhythmTiles.Text.Hex

/-!
# Quoted scalars

A quoted scalar ends at its closing quote. It may go on over several lines, but no line inside it
may start or end a document.
-/

namespace RhythmTiles.Yaml

/-- The character with a code written in hexadecimal digits. -/
def charOfHex? (digits : List Char) : Option Char :=
  (Text.ofHex? digits).bind fun code =>
    if code.isValidChar then some (Char.ofNat code) else none

def escape? (c : Char) : Option Char :=
  match c with
  | '0' => some '\u0000'
  | 'a' => some '\u0007'
  | 'b' => some '\u0008'
  | 't' | '\t' => some '\t'
  | 'n' => some '\n'
  | 'v' => some '\u000b'
  | 'f' => some '\u000c'
  | 'r' => some '\r'
  | 'e' => some '\u001b'
  | ' ' | '"' | '/' | '\\' => some c
  | 'N' => some '\u0085'
  | '_' => some '\u00a0'
  | 'L' => some '\u2028'
  | 'P' => some '\u2029'
  | _ => none

/-- Reads between double quotes, through the closing one, behind a gap. -/
def readDouble (gap : Gap) : List Char → Option (List Char × List Char)
  | [] => none
  | '"' :: cs => some (gap.text, cs)
  | '\\' :: 'x' :: a :: b :: cs => do
    let c ← charOfHex? [a, b]
    let (text, rest) ← readDouble .empty cs
    pure (gap.text ++ c :: text, rest)
  | '\\' :: 'u' :: a :: b :: c :: d :: cs => do
    let c ← charOfHex? [a, b, c, d]
    let (text, rest) ← readDouble .empty cs
    pure (gap.text ++ c :: text, rest)
  | '\\' :: 'U' :: a :: b :: c :: d :: e :: f :: g :: h :: cs => do
    let c ← charOfHex? [a, b, c, d, e, f, g, h]
    let (text, rest) ← readDouble .empty cs
    pure (gap.text ++ c :: text, rest)
  | '\\' :: c :: cs =>
    -- the break is dropped, with the blanks behind it
    if isBreak c then
      (readDouble .escapedBreak cs).map fun (text, rest) => (gap.text ++ text, rest)
    else do
      let c ← escape? c
      let (text, rest) ← readDouble .empty cs
      pure (gap.text ++ c :: text, rest)
  | c :: cs =>
    if isGap c then readDouble (gap.push c) cs
    else if gap.startsLine && atDocumentMarker (c :: cs) then none
    else (readDouble .empty cs).map fun (text, rest) => (gap.text ++ c :: text, rest)

/-- Reads between single quotes, through the closing one, behind a gap; a quote inside is written
twice. -/
def readSingle (gap : Gap) : List Char → Option (List Char × List Char)
  | [] => none
  | '\'' :: '\'' :: cs =>
    (readSingle .empty cs).map fun (text, rest) => (gap.text ++ '\'' :: text, rest)
  | '\'' :: cs => some (gap.text, cs)
  | c :: cs =>
    if isGap c then readSingle (gap.push c) cs
    else if gap.startsLine && atDocumentMarker (c :: cs) then none
    else (readSingle .empty cs).map fun (text, rest) => (gap.text ++ c :: text, rest)

end RhythmTiles.Yaml
