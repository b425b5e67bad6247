import RhythmTiles.Yaml.Character

/-!
# Indented scalars

A scalar on lines of its own, behind a header on the line before. Its lines start at one column.
In a literal scalar every break of lines counts; in a folded one a break between two lines that do
not start with a blank stands for a space. The header says what becomes of the breaks at the end.
-/

namespace RhythmTiles.Yaml

/-- What becomes of the breaks at the end of an indented scalar. -/
inductive Chomping where
  /-- The break behind the last line with text stays. -/
  | clip
  /-- None stays. -/
  | strip
  /-- All stay. -/
  | keep

def takeChomping : List Char → Option Chomping × List Char
  | '+' :: cs => (some .keep, cs)
  | '-' :: cs => (some .strip, cs)
  | cs => (none, cs)

/-- The digit in a header, if one stands here. Zero is none that may stand there. -/
def takeDigit? : List Char → Option (Option Nat × List Char)
  | [] => some (none, [])
  | c :: cs =>
    if c == '0' then none
    else if c.isDigit then some (some (c.toNat - 48), cs)
    else some (none, c :: cs)

/-- Reads the header of an indented scalar through the end of its line: a mark and a digit in
either order, or one of them, or none. -/
def readHeader? (cs : List Char) : Option (Chomping × Option Nat × List Char) := do
  let (before, cs) := takeChomping cs
  let (digit, cs) ← takeDigit? cs
  let (after, cs) := if before.isNone && digit.isSome then takeChomping cs else (none, cs)
  let rest ← afterLine? cs
  pure ((before.or after).getD .clip, digit, rest)

/-- The column at which the lines of a scalar without a digit in its header start: that of its
first line with text or the widest void line before it, and at least `low`. -/
def detectColumn? (low column widest : Nat) : List Char → Option Nat
  | [] => some (max low (max widest column))
  | c :: cs =>
    if c == ' ' then detectColumn? low (column + 1) widest cs
    else if c == '\t' then none
    else if isBreak c then detectColumn? low 0 (max widest column) cs
    else some (max low (max widest column))

/-- The breaks that wait for the next line with text. -/
structure Pending where
  /-- The break behind the last line with text. -/
  last : List Char
  /-- The breaks of the void lines behind it. -/
  void : List Char
  /-- Whether the last line with text starts with a blank. -/
  afterBlank : Bool

namespace Pending

def empty : Pending := ⟨[], [], false⟩

/-- The text between two lines, the second of which starts with a blank or does not. -/
def join (pending : Pending) (folded startsBlank : Bool) : List Char :=
  if folded && pending.last == ['\n'] && !pending.afterBlank && !startsBlank then
    if pending.void.isEmpty then [' '] else pending.void
  else pending.last ++ pending.void

def finish (pending : Pending) : Chomping → List Char
  | .clip => pending.last
  | .strip => []
  | .keep => pending.last ++ pending.void

end Pending

/-- Reads the lines that start at column `low`. While a line has not reached it, `indent` is the
number of spaces behind; inside a line it is none. -/
def readIndented (folded : Bool) (chomping : Chomping) (low : Nat) :
    Option Nat → Pending → List Char → Option (List Char × List Char)
  | _, pending, [] => some (pending.finish chomping, [])
  | none, pending, c :: cs =>
    if isBreak c then
      readIndented folded chomping low (some 0) { pending with last := [c] } cs
    else
      (readIndented folded chomping low none pending cs).map fun (text, rest) => (c :: text, rest)
  | some indent, pending, c :: cs =>
    if indent < low && c == ' ' then
      readIndented folded chomping low (some (indent + 1)) pending cs
    else if indent < low && c == '\t' then none
    else if isBreak c then
      readIndented folded chomping low (some 0) { pending with void := pending.void ++ [c] } cs
    else if indent < low then some (pending.finish chomping, c :: cs)
    else
      (readIndented folded chomping low none ⟨[], [], isSpace c⟩ cs).map fun (text, rest) =>
        (pending.join folded (isSpace c) ++ c :: text, rest)

/-- Reads an indented scalar behind its first mark. What stands inside the collection around it
starts at column `low` or deeper; a digit in the header counts from the column of the collection. -/
def readIndentedScalar? (folded : Bool) (low : Nat) (cs : List Char) :
    Option (List Char × List Char) := do
  let (chomping, digit, cs) ← readHeader? cs
  let column ←
    match digit with
    | some digit => some (low - 1 + digit)
    | none => detectColumn? (max low 1) 0 0 cs
  readIndented folded chomping column (some 0) .empty cs

end RhythmTiles.Yaml
