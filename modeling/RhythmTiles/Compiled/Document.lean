import RhythmTiles.Compiled.Basic

/-!
# The document of a compiled level

What is written of a compiled level, member by member in a fixed order. A timeline fault and an
audition are members only where there is one.
-/

namespace RhythmTiles

def Json.nat (n : Nat) : Json := .int n

def TileKind.name : TileKind → String
  | single => "single"
  | double => "double"
  | empty => "empty"

def Row.toJson (row : Row) : Json :=
  .object [("kind", .string row.kind.name), ("heightMultiplier", .nat row.height)]

def Section.toJson (s : Section Float) : Json :=
  .object [("id", .int s.id), ("tps", .float s.tilesPerSecond), ("startRowIndex", .nat s.firstRow),
    ("endRowIndex", .nat s.endRow), ("rowCount", .nat s.rowCount)]

def PlacedRow.toJson (row : PlacedRow Float) : Json :=
  .object [("rowIndex", .nat row.index), ("isStart", .bool row.isStart),
    ("bottom", .float row.bottom), ("height", .float row.height),
    ("heightMultiplier", .nat row.tiles), ("tileCount", .nat row.tileCount)]

def Indicator.toJson (i : Indicator Float) : Json :=
  .object [("noteId", .string i.id), ("rowIndex", .nat i.rowIndex), ("x", .float i.x),
    ("y", .float i.y), ("width", .float i.width), ("height", .float i.height),
    ("time", .float i.time), ("consumed", .bool i.consumed)]

def TempoChange.toJson (change : TempoChange Float) : Json :=
  .object [("ticks", .nat change.ticks), ("bpm", .float change.bpm), ("time", .float change.time)]

def Note.toJson (note : Note Float) : Json :=
  .object [("pitch", .nat note.pitch), ("startTicks", .nat note.startTicks),
    ("durationTicks", .nat note.durationTicks), ("time", .float note.time),
    ("duration", .float note.duration)]

def TimelineTrack.toJson (track : TimelineTrack Float) : Json :=
  .object [("channel", .nat track.channel), ("notes", .array (track.notes.map Note.toJson))]

def Timeline.toJson (t : Timeline Float) : Json :=
  .object [("ppq", .nat t.ticksPerQuarter), ("tempos", .array (t.tempos.map TempoChange.toJson)),
    ("tracks", .array (t.tracks.map TimelineTrack.toJson))]

def Compiled.toJson (c : Compiled) : Json :=
  .object <|
    [("rows", .array (c.rows.map Row.toJson)),
      ("sections", .array (c.sections.map Section.toJson)),
      ("placedRows", .array (c.placedRows.map PlacedRow.toJson)),
      ("indicators", .array (c.indicators.map Indicator.toJson)),
      ("timeline", c.timeline.toJson)]
    ++ (c.timelineFault.map fun fault => ("timelineError", Json.string fault.message)).toList
    ++ (c.audition.map fun audition => ("audition", audition)).toList

end RhythmTiles
