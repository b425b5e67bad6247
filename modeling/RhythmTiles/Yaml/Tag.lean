import RhythmTiles.Yaml.Character
import RhythmTiles.Text.Hex

/-!
# Names and tags

Anchors carry names. A tag is written with a handle, for which its document has an expansion, or in
full between angle brackets.
-/

namespace RhythmTiles.Yaml

/-- Whether a name may end here: before a gap or before one of a few marks. -/
def endsName : List Char → Bool
  | [] => true
  | c :: _ => isGap c || "?:,]\x7d%@\x60".toList.contains c

def readName? (cs : List Char) : Option (List Char × List Char) :=
  let name := cs.takeWhile isNameChar
  let rest := cs.dropWhile isNameChar
  if !name.isEmpty && endsName rest then some (name, rest) else none

/-- The characters of tags. Some brackets are among them where no collection can be meant. -/
def isTagChar (brackets : Bool) (c : Char) : Bool :=
  isNameChar c || ";/?:@&=+$.!~*'()".toList.contains c
    || (brackets && (c == ',' || c == '[' || c == ']'))

/-- How many octets follow the first octet of a character. -/
def laterOctets? (octet : Nat) : Option Nat :=
  if octet < 0x80 then some 0
  else if octet < 0xc0 then none
  else if octet < 0xe0 then some 1
  else if octet < 0xf0 then some 2
  else if octet < 0xf8 then some 3
  else none

/-- How many octets are still due behind an octet, of which `due` were due before it. -/
def octetsDue? : Nat → Nat → Option Nat
  | 0, octet => laterOctets? octet
  | due + 1, octet => if 0x80 ≤ octet && octet < 0xc0 then some due else none

/-- Reads the characters of a tag as octets, `due` of which have to be escaped ones that continue a
character. A percent sign escapes an octet. -/
def readOctets (brackets : Bool) (due : Nat) : List Char → Option (List Char × List Char)
  | [] => if due = 0 then some ([], []) else none
  | '%' :: a :: b :: cs => do
    let octet ← Text.ofHex? [a, b]
    let due ← octetsDue? due octet
    let (octets, rest) ← readOctets brackets due cs
    pure (Char.ofNat octet :: octets, rest)
  | c :: cs =>
    if due ≠ 0 || c == '%' then none
    else if isTagChar brackets c then
      (readOctets brackets 0 cs).map fun (octets, rest) => (c :: octets, rest)
    else some ([], c :: cs)

/-- Reads a part of a tag, which holds at least one character. An octet of zero ends its text. -/
def readTagPart? (brackets : Bool) (cs : List Char) : Option (List Char × List Char) := do
  let (octets, rest) ← readOctets brackets 0 cs
  if octets.isEmpty then none else pure (octets.takeWhile (· != '\u0000'), rest)

/-- A tag as it is written: a handle, which is empty if the tag is written in full, and what follows
it. -/
structure Tag where
  handle : List Char
  ending : List Char
  deriving DecidableEq

/-- Reads a tag behind its exclamation mark. A mark alone is a tag in full. -/
def readShortTag? (cs : List Char) : Option (Tag × List Char) :=
  let word := cs.takeWhile isNameChar
  match cs.dropWhile isNameChar with
  | '!' :: rest => do
    let (ending, rest) ← readTagPart? false rest
    pure (⟨'!' :: word ++ ['!'], ending⟩, rest)
  | _ => do
    let (octets, rest) ← readOctets false 0 cs
    let ending := octets.takeWhile (· != '\u0000')
    pure (if ending.isEmpty then ⟨[], ['!']⟩ else ⟨['!'], ending⟩, rest)

/-- Reads a tag between angle brackets, behind the first. -/
def readFullTag? (cs : List Char) : Option (Tag × List Char) := do
  let (ending, rest) ← readTagPart? true cs
  match rest with
  | '>' :: rest => pure (⟨[], ending⟩, rest)
  | _ => none

/-- Reads a tag behind its exclamation mark. A gap has to follow it, or a comma inside brackets. -/
def readTag? (inBrackets : Bool) (cs : List Char) : Option (Tag × List Char) := do
  let (tag, rest) ←
    match cs with
    | '<' :: cs => readFullTag? cs
    | cs => readShortTag? cs
  if atGap rest || (inBrackets && rest.head? == some ',') then pure (tag, rest) else none

/-- The handles with an expansion that a document need not declare. -/
def defaultHandles : List (List Char × List Char) :=
  [("!".toList, "!".toList), ("!!".toList, "tag:yaml.org,2002:".toList)]

def Tag.text? (handles : List (List Char × List Char)) (tag : Tag) : Option (List Char) :=
  if tag.handle.isEmpty then some tag.ending
  else ((handles ++ defaultHandles).lookup tag.handle).map (· ++ tag.ending)

/-- A line before a document that says how to read it. -/
inductive Directive where
  | version (major minor : Nat)
  | handle (handle expansion : List Char)
  deriving DecidableEq

/-- Reads a number of at most nine digits. -/
def readVersionNumber? (cs : List Char) : Option (Nat × List Char) :=
  let digits := cs.takeWhile Char.isDigit
  if digits.isEmpty || 9 < digits.length then none
  else some (digits.foldl (fun n d => 10 * n + (d.toNat - 48)) 0, cs.dropWhile Char.isDigit)

/-- Reads the handle of a directive: a mark, or a name between two. -/
def readHandle? : List Char → Option (List Char × List Char)
  | '!' :: cs =>
    let word := cs.takeWhile isNameChar
    match cs.dropWhile isNameChar with
    | '!' :: rest => some ('!' :: word ++ ['!'], rest)
    | rest => if word.isEmpty then some (['!'], rest) else none
  | _ => none

def readDirectiveValue? (name : String) (cs : List Char) : Option (Directive × List Char) :=
  if name == "YAML" then do
    let (major, rest) ← readVersionNumber? (skipSpaces cs)
    match rest with
    | '.' :: rest =>
      let (minor, rest) ← readVersionNumber? rest
      pure (.version major minor, rest)
    | _ => none
  else if name == "TAG" then do
    let (handle, rest) ← readHandle? (skipSpaces cs)
    if (rest.head?.map isSpace).getD false then
      let (expansion, rest) ← readTagPart? true (skipSpaces rest)
      if atGap rest then pure (.handle handle expansion, rest) else none
    else none
  else none

/-- Reads a directive behind its percent sign, through the end of its line. -/
def readDirective? (cs : List Char) : Option (Directive × List Char) := do
  let rest := cs.dropWhile isNameChar
  if atGap rest then
    let (directive, rest) ← readDirectiveValue? (String.ofList (cs.takeWhile isNameChar)) rest
    let rest ← afterLine? rest
    pure (directive, rest)
  else none

end RhythmTiles.Yaml
