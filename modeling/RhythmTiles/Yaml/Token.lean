import RhythmTiles.Yaml.Tag

/-!
# Tokens of settings texts

The words of a settings text. Collections whose structure is in the indentation have a start and an
end among them, as collections in brackets do, and a key has a token before it even if no mark is
written there.
-/

namespace RhythmTiles.Yaml

inductive Style where
  /-- Without quotes. -/
  | plain
  | quoted
  /-- On lines of its own, each break of which counts. -/
  | literal
  /-- On lines of its own that are folded. -/
  | folded
  deriving DecidableEq

inductive Token where
  | directive (directive : Directive)
  | documentStart
  | documentEnd
  /-- The start of a sequence whose items stand behind dashes at one column. -/
  | sequenceStart
  /-- The start of a mapping whose keys stand at one column. -/
  | mappingStart
  /-- The end of a collection whose structure is in the indentation. -/
  | indentedEnd
  /-- The dash of an item. -/
  | item
  /-- An opening square bracket. -/
  | openItems
  | closeItems
  /-- An opening brace. -/
  | openEntries
  | closeEntries
  | comma
  | key
  | value
  /-- An alias of an anchored node. -/
  | reference (name : List Char)
  | anchor (name : List Char)
  | tag (tag : Tag)
  | scalar (style : Style) (text : List Char)
  deriving DecidableEq

end RhythmTiles.Yaml
