import RhythmTiles.Yaml.Gap

/-!
# Unquoted scalars

An unquoted scalar ends before a colon that a gap follows, before a comment, before a line of less
indentation, before a marker of documents and, inside brackets, before a bracket or a comma.
-/

namespace RhythmTiles.Yaml

/-- Whether an unquoted scalar can start here. A dash starts one unless a gap follows it, and so do
a question mark and a colon outside brackets. -/
def startsPlain (inBrackets : Bool) : List Char → Bool
  | [] => false
  | '-' :: cs => !atGap cs
  | '?' :: cs => !inBrackets && !atGap cs
  | ':' :: cs => !inBrackets && !atGap cs
  | c :: _ => !isIndicator c && !isGap c

/-- Whether a colon inside brackets joins a word to what cannot follow it. -/
def isMisplacedColon (cs : List Char) : Bool :=
  match cs with
  | ':' :: c :: _ => isBracket c || c == '?'
  | _ => false

def endsWord (inBrackets : Bool) : List Char → Bool
  | [] => true
  | ':' :: cs => atGap cs
  | c :: _ => inBrackets && isBracket c

/-- Whether a scalar whose lines start at column `low` ends at a gap. -/
def endsAtGap (inBrackets : Bool) (low : Nat) (gap : Gap) (cs : List Char) : Bool :=
  !gap.chars.isEmpty
    && (cs.head? == some '#' || (gap.startsLine && atDocumentMarker cs)
      || (!inBrackets && gap.isBroken && gap.column < low))

/-- Reads an unquoted scalar behind a gap. The gap behind the last word belongs to it too: the
second part of the result says whether a line ends there. A tab is no indentation. -/
def readPlain (inBrackets : Bool) (low : Nat) (gap : Gap) :
    List Char → Option (List Char × Bool × List Char)
  | [] => some ([], gap.isBroken, [])
  | c :: cs =>
    if isGap c then
      if c == '\t' && gap.isBroken && gap.column < low then none
      else readPlain inBrackets low (gap.push c) cs
    else if endsAtGap inBrackets low gap (c :: cs) then some ([], gap.isBroken, c :: cs)
    else if inBrackets && isMisplacedColon (c :: cs) then none
    else if endsWord inBrackets (c :: cs) then some ([], gap.isBroken, c :: cs)
    else
      (readPlain inBrackets low .empty cs).map fun (text, isBroken, rest) =>
        (gap.text ++ c :: text, isBroken, rest)

end RhythmTiles.Yaml
