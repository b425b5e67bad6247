import RhythmTiles.Json.Text
import RhythmTiles.Score.Fault

/-!
# Why a level is refused

A level document can be malformed; a score of a level can be; and a track may be too short to be
trimmed as far as its section asks. `LevelFault.message` puts each into words.
-/

namespace RhythmTiles

/-- A field that holds a positive number. -/
inductive NumberField where
  | baseBpm
  | bpm (music : Nat)
  | baseBeats (music : Nat)
  deriving DecidableEq, Repr

def NumberField.label : NumberField → String
  | baseBpm => "baseBpm"
  | bpm i => s!"musics[{i}].bpm"
  | baseBeats i => s!"musics[{i}].baseBeats"

/-- What is wrong with a level document. -/
inductive DocumentFault where
  /-- The text is no document, or not of a level's shape. -/
  | unreadable
  | required (field : NumberField)
  | notPositive (field : NumberField) (value : Float)
  | notNumber (field : NumberField) (value : Json)
  | musicsRequired
  | musicsNotArray
  | musicNotObject (music : Nat)
  | idNotNumber (music : Nat)
  | idNotWhole (music : Nat) (value : Float)
  | scoresNotArray (music : Nat)
  | scoreNotString (music score : Nat)

def DocumentFault.message : DocumentFault → String
  | unreadable => "the text is not a level document"
  | required field => field.label ++ " is required"
  | notPositive field x => field.label ++ " must be positive, got " ++ Decimal.floatText .message x
  | notNumber field v => field.label ++ " must be a number, got " ++ v.compact
  | musicsRequired => "musics is required"
  | musicsNotArray => "musics must be an array"
  | musicNotObject i => s!"musics[{i}] must be an object"
  | idNotNumber i => s!"musics[{i}].id must be a number"
  | idNotWhole i x =>
    s!"musics[{i}].id must be an integer, got " ++ Decimal.floatText .message x
  | scoresNotArray i => s!"musics[{i}].scores must be an array"
  | scoreNotString i j => s!"musics[{i}].scores[{j}] must be a string"

/-- What a track lacks for a trim. -/
structure Shortage where
  /-- The ticks to be removed. -/
  amount : Nat
  /-- Those of them that the track does not have. -/
  missing : Nat
  deriving DecidableEq, Repr

def Shortage.message (s : Shortage) : String :=
  s!"cannot remove {s.amount} ticks, {s.missing} short"

/-- Why a level is refused, or has no timeline. -/
inductive LevelFault where
  | document (fault : DocumentFault)
  /-- A score of a section cannot be read. -/
  | score (music track : Nat) (fault : ScoreFault)
  /-- A track of a section cannot be trimmed. -/
  | alignment (music track : Nat) (shortage : Shortage)

def LevelFault.message : LevelFault → String
  | document fault => "Invalid level: " ++ fault.message
  | score i k (.misread position cause) =>
    s!"Notation error in section {i}, track {k}, at character {position}: " ++ cause.message
  | score i k (.overflow ticks) =>
    s!"Tick overflow in section {i}, track {k}: {ticks} ticks exceeds the limit"
  | alignment i k shortage =>
    s!"Alignment error in section {i}, track {k}: " ++ shortage.message

end RhythmTiles
