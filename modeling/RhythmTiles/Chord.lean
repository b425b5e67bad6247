import RhythmTiles.Carry
import RhythmTiles.Glyph
import RhythmTiles.Score.Fault
import RhythmTiles.Track.Basic

/-!
# Playing a chord

A chord is a list of notes and glyphs that fills a length. Dividers split it into groups of equal
share; each group sounds at once, as an arpeggio, or as an ornament. Every split goes through a
`Carry`, so the delays of a chord add up to its length.
-/

namespace RhythmTiles.Chord

/-- How a group is played. -/
inductive Arrangement where
  | together
  | arpeggio (style : Arpeggio)
  | ornament
  deriving DecidableEq, Repr

def asked? : Entry → Option Arrangement
  | .glyph (.arpeggio style) => some (.arpeggio style)
  | .glyph .ornament => some .ornament
  | _ => none

/-- The first arrangement that an entry of the group asks for. -/
def arrangement (group : List Entry) : Arrangement := (group.findSome? asked?).getD .together

/-- Refuses entries that ask for two different arrangements. -/
def checkKinds (position : Nat) : Option Arrangement → List Entry → Except ScoreFault Unit
  | _, [] => .ok ()
  | kind, entry :: entries =>
    match asked? entry, kind with
    | none, _ => checkKinds position kind entries
    | some found, none => checkKinds position (some found) entries
    | some found, some kind =>
      if found = kind then checkKinds position (some kind) entries
      else .error (.misread position .mixedGlyphs)

/-- Refuses a chord with two kinds of arrangement or with two ornaments. -/
def check (position : Nat) (entries : List Entry) : Except ScoreFault Unit := do
  checkKinds position none entries
  if 1 < entries.count (.glyph .ornament) then .error (.misread position .repeatedOrnament)

def pitches (group : List Entry) : List Pitch := group.filterMap Entry.pitch?

/-- All notes on, the whole length, all notes off. -/
def together (group : List Entry) (length : Nat) : Track :=
  (pitches group).map .on ++ .delay length :: (pitches group).map .off

/-- The share of one arpeggio glyph, where `count` glyphs are in the group. -/
def slice (style : Arpeggio) (carry : Carry) (length count : Nat) : Nat × Carry :=
  match style with
  | .roll => carry.divide length (10 * max 1 (count - 1))
  | .spread => carry.divide (3 * length) (10 * count)
  | .quick => carry.divide (3 * length) (20 * count)

/-- Notes go on one after the other, each glyph taking its slice of the time that remains; the
chord then rings for the rest. -/
def stagger (style : Arpeggio) (length count : Nat) (carry : Carry) (remaining : Nat) :
    List Entry → Track
  | [] => [.delay remaining]
  | .pitch p :: group => .on p :: stagger style length count carry remaining group
  | .glyph (.arpeggio _) :: group =>
    let (share, carry) := slice style carry length count
    let taken := min share remaining
    .delay taken :: stagger style length count carry (remaining - taken) group
  | .glyph _ :: group => stagger style length count carry remaining group

/-- A staggered chord, all of whose notes end together. -/
def arpeggio (style : Arpeggio) (group : List Entry) (length : Nat) : Track :=
  stagger style length (group.countP Entry.isArpeggio) {} length group
    ++ (pitches group).map .off

/-- The divisor that turns an ornament total into a step. -/
def ornamentDivisor : Nat := 720

/-- Two notes in turn, each for a step of at least one tick, until the time is used up. -/
def alternate (first second : Pitch) (ornamentTotal : Nat) (carry : Carry) (sounding : Pitch)
    (remaining : Nat) : Track :=
  let share := carry.divide ornamentTotal ornamentDivisor
  let step := max 1 share.1
  if remaining ≤ step then [.on sounding, .delay remaining, .off sounding]
  else
    .on sounding :: .delay step :: .off sounding ::
      alternate first second ornamentTotal share.2 (if sounding = first then second else first)
        (remaining - step)
termination_by remaining
decreasing_by omega

/-- An ornament: exactly two notes around its glyph, both of them keys. -/
def ornament (group : List Entry) (length ornamentTotal position : Nat) : Except ScoreFault Track :=
  match group with
  | [.pitch first, .glyph .ornament, .pitch second] =>
    if first < Pitch.firstReal ∨ second < Pitch.firstReal then
      .error (.misread position .unplayableOrnament)
    else .ok (alternate first second ornamentTotal {} first length)
  | _ => .error (.misread position .malformedOrnament)

def expandGroup (ornamentTotal position : Nat) (group : List Entry) (length : Nat) :
    Except ScoreFault Track :=
  match arrangement group with
  | .together => .ok (together group length)
  | .arpeggio style => .ok (arpeggio style group length)
  | .ornament => ornament group length ornamentTotal position

def expandGroups (ornamentTotal position : Nat) :
    List (List Entry × Nat) → Except ScoreFault Track
  | [] => .ok []
  | (group, share) :: groups => do
    let track ← expandGroup ornamentTotal position group share
    let rest ← expandGroups ornamentTotal position groups
    pure (track ++ rest)

def groups (entries : List Entry) : List (List Entry) := entries.splitOnP Entry.isDivider

/-- The events of a chord over a length. Faults are placed at `position`. -/
def expand (entries : List Entry) (length ornamentTotal position : Nat) :
    Except ScoreFault Track := do
  check position entries
  let groups := groups entries
  expandGroups ornamentTotal position (groups.zip (Carry.shares length groups.length))

end RhythmTiles.Chord
