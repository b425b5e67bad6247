import RhythmTiles.Yaml.Character

/-!
# Gaps between words

A scalar over several lines is folded: one break of lines between two words stands for a space, and
of several the first is dropped. Blanks around a break do not count.
-/

namespace RhythmTiles.Yaml

/-- What stands between two words of a scalar. -/
structure Gap where
  /-- The characters, the last one first. -/
  chars : List Char
  /-- Whether an escaped break of lines opens the gap. -/
  escaped : Bool

namespace Gap

def empty : Gap := ⟨[], false⟩

def escapedBreak : Gap := ⟨[], true⟩

def push (gap : Gap) (c : Char) : Gap := { gap with chars := c :: gap.chars }

def isBroken (gap : Gap) : Bool := gap.chars.any isBreak

/-- The column behind a gap with a break. -/
def column (gap : Gap) : Nat := (gap.chars.takeWhile fun c => !isBreak c).length

/-- Whether the next word starts a line. -/
def startsLine (gap : Gap) : Bool :=
  match gap.chars with
  | [] => gap.escaped
  | c :: _ => isBreak c

def text (gap : Gap) : List Char :=
  let breaks := (gap.chars.filter isBreak).reverse
  if gap.escaped then breaks
  else
    match breaks with
    | [] => gap.chars.reverse
    | ['\n'] => [' ']
    | '\n' :: later => later
    | breaks => breaks

end Gap

end RhythmTiles.Yaml
