import RhythmTiles.Binary64
import RhythmTiles.Json.Value
import RhythmTiles.Level.Basic
import RhythmTiles.Level.Fault

/-!
# Level documents

A level document has three fields, and is first read with whatever values they hold. The values are
then checked in order: the base tempo, then the sections one by one, in each the id, the tempo, the
base beats and the scores. The first violation is reported.
-/

namespace RhythmTiles

/-- The fields of a level document, of any value. -/
structure LevelDocument where
  baseBpm : Option Json
  musics : Option Json
  audition : Option Json

namespace LevelDocument

/-- How deep containers may nest in a field. The document around it is one more. -/
def fieldDepth : Nat := 126

def fieldNames : List String := ["baseBpm", "musics", "audition"]

/-- The value of a field; `null` counts as absent. -/
def fieldValue? (source : Json.Source) : Option (Option Json) :=
  match Json.ofSource? fieldDepth source with
  | some .null => some none
  | some value => some (some value)
  | none => none

/-- The members with field names. Other members are passed over whatever they hold; a field may be
given once. -/
def fields? : List (List Json.StringUnit × Json.Source) →
    Option (List (String × Option Json))
  | [] => some []
  | (key, source) :: members => do
    let key ← Json.text? key
    let rest ← fields? members
    if fieldNames.contains key then
      let value ← fieldValue? source
      if (rest.lookup key).isSome then none else pure ((key, value) :: rest)
    else pure rest

/-- The document of a text: an object, or an array of exactly the three values. -/
def ofText? (text : List Char) : Option LevelDocument := do
  let source ← Json.Source.ofText? text
  match source with
  | .object members =>
    let fields ← fields? members
    let field := fun key => (fields.lookup key).join
    pure ⟨field "baseBpm", field "musics", field "audition"⟩
  | .array [baseBpm, musics, audition] =>
    let baseBpm ← fieldValue? baseBpm
    let musics ← fieldValue? musics
    let audition ← fieldValue? audition
    pure ⟨baseBpm, musics, audition⟩
  | _ => none

end LevelDocument

namespace Level

/-- The number that a value stands for: a number, or a string that reads as one when trimmed. -/
def number? : Json → Option Float
  | .string s => Decimal.floatOfText? (Text.trim s.toList)
  | value => value.toFloat?

/-- Reads a field that has to hold a finite positive number. -/
def positive (field : NumberField) (value : Json) : Except DocumentFault Float :=
  match number? value with
  | some x => if x.isFinite ∧ 0 < x then .ok x else .error (.notPositive field x)
  | none => .error (.notNumber field value)

/-- A section's id: a number without fraction, within a signed 64-bit word. -/
def readId (music : Nat) (value : Option Json) : Except DocumentFault Int :=
  -- whole numbers become doubles here, too, so one of more than 53 bits can change
  match value.bind Json.toFloat? with
  | none => .error (.idNotNumber music)
  | some x =>
    match Binary64.whole? x with
    | some id => .ok (clampInt64 id)
    | none => .error (.idNotWhole music x)

/-- The strings of an array, counted from `index`. -/
def readStrings (music index : Nat) : List Json → Except DocumentFault (List String)
  | [] => .ok []
  | .string s :: items => do
    let rest ← readStrings music (index + 1) items
    pure (s :: rest)
  | _ :: _ => .error (.scoreNotString music index)

def readScores (music : Nat) : Option Json → Except DocumentFault (List String)
  | some (.array items) => readStrings music 0 items
  | _ => .error (.scoresNotArray music)

def readMusic (index : Nat) : Json → Except DocumentFault Music
  | .object members => do
    let id ← readId index (Json.member? members "id")
    let bpm ←
      match Json.member? members "bpm" with
      | none => pure none
      | some value => (positive (.bpm index) value).map some
    let baseBeats ←
      match Json.member? members "baseBeats" with
      | none => .error (.required (.baseBeats index))
      | some value => positive (.baseBeats index) value
    let scores ← readScores index (Json.member? members "scores")
    pure ⟨id, bpm, baseBeats, scores⟩
  | _ => .error (.musicNotObject index)

def readMusics (index : Nat) : List Json → Except DocumentFault (List Music)
  | [] => .ok []
  | value :: values => do
    let music ← readMusic index value
    let musics ← readMusics (index + 1) values
    pure (music :: musics)

def ofDocument (document : LevelDocument) : Except DocumentFault Level := do
  let baseBpm ←
    match document.baseBpm with
    | none => .error (.required .baseBpm)
    | some value => positive .baseBpm value
  let entries ←
    match document.musics with
    | none => .error .musicsRequired
    | some (.array entries) => pure entries
    | some _ => .error .musicsNotArray
  let musics ← readMusics 0 entries
  pure ⟨baseBpm, musics, document.audition⟩

def ofText (text : String) : Except LevelFault Level :=
  match LevelDocument.ofText? text.toList with
  | none => .error (.document .unreadable)
  | some document => (ofDocument document).mapError .document

end Level

end RhythmTiles
