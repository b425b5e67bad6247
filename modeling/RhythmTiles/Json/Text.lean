import RhythmTiles.Decimal.Text
import RhythmTiles.Json.Basic

/-!
# Documents as text

A document is written compactly, or indented by two spaces a level with one member or item a line.
-/

namespace RhythmTiles.Json

def escapeChar (c : Char) : List Char :=
  if c = '"' then ['\\', '"']
  else if c = '\\' then ['\\', '\\']
  else if c = '\u0008' then ['\\', 'b']
  else if c = '\t' then ['\\', 't']
  else if c = '\n' then ['\\', 'n']
  else if c = '\u000c' then ['\\', 'f']
  else if c = '\r' then ['\\', 'r']
  else if c < ' ' then ['\\', 'u', '0', '0', Nat.digitChar (c.toNat / 16), Nat.digitChar (c.toNat % 16)]
  else [c]

def quote (s : String) : String :=
  "\"" ++ String.ofList (s.toList.flatMap escapeChar) ++ "\""

mutual

/-- The text of a value without any white space. -/
def compact : Json → String
  | null => "null"
  | bool true => "true"
  | bool false => "false"
  | int n => toString n
  | float x => Decimal.floatText .document x
  | string s => quote s
  | array items => "[" ++ String.intercalate "," (compactItems items) ++ "]"
  | object members => "\x7b" ++ String.intercalate "," (compactMembers members) ++ "\x7d"

def compactItems : List Json → List String
  | [] => []
  | item :: items => compact item :: compactItems items

def compactMembers : List (String × Json) → List String
  | [] => []
  | (key, value) :: members => (quote key ++ ":" ++ compact value) :: compactMembers members

end

/-- The start of a line that is indented to a level. -/
def lineStart (level : Nat) : String := "\n" ++ String.ofList (List.replicate (2 * level) ' ')

/-- Brackets around parts, one a line; without parts nothing stands between the brackets. -/
def bracketLines (opening closing : String) (level : Nat) (parts : List String) : String :=
  if parts.isEmpty then opening ++ closing
  else opening ++ lineStart (level + 1) ++ String.intercalate ("," ++ lineStart (level + 1)) parts
    ++ lineStart level ++ closing

mutual

/-- The indented text of a value that stands at a level. -/
def prettyAt (level : Nat) : Json → String
  | array items => bracketLines "[" "]" level (prettyItems (level + 1) items)
  | object members => bracketLines "\x7b" "\x7d" level (prettyMembers (level + 1) members)
  | null => "null"
  | bool b => compact (bool b)
  | int n => compact (int n)
  | float x => compact (float x)
  | string s => quote s

def prettyItems (level : Nat) : List Json → List String
  | [] => []
  | item :: items => prettyAt level item :: prettyItems level items

def prettyMembers (level : Nat) : List (String × Json) → List String
  | [] => []
  | (key, value) :: members =>
    (quote key ++ ": " ++ prettyAt level value) :: prettyMembers level members

end

def pretty (value : Json) : String := prettyAt 0 value

end RhythmTiles.Json
