import RhythmTiles.Yaml.Layout
import RhythmTiles.Yaml.Node

/-!
# Settings documents

A settings text is one document: directives and a start marker, or neither, then a node, then any
number of end markers. A node may be missing wherever something else shows its place.
-/

namespace RhythmTiles.Yaml

/-- The tokens still to be read, and the names of the anchors before them with their numbers. -/
structure Source where
  tokens : List Token
  names : List (List Char × Nat)

namespace Source

def withTokens (source : Source) (tokens : List Token) : Source := { source with tokens := tokens }

/-- Numbers the node that a name stands for from here on, by how many names there are before it. -/
def define (source : Source) (name : List Char) : Nat × Source :=
  let number := source.names.length
  (number, { source with names := (name, number) :: source.names.filter (·.1 != name) })

/-- The first token of a node's content, behind an anchor and a tag in either order. -/
def properties (source : Source) : Option (List Char) × Option Tag × List Token :=
  match source.tokens with
  | .anchor name :: .tag tag :: rest => (some name, some tag, rest)
  | .tag tag :: .anchor name :: rest => (some name, some tag, rest)
  | .anchor name :: rest => (some name, none, rest)
  | .tag tag :: rest => (none, some tag, rest)
  | rest => (none, none, rest)

end Source

inductive Position where
  /-- Inside brackets. -/
  | bracketed
  /-- Outside brackets. -/
  | indented
  /-- Outside brackets in an entry. The dashes of its items may stand at the column of its key. -/
  | entry
  deriving DecidableEq

/-- The tokens before which the node of an entry is missing. -/
def endsEntryPart : Token → Bool
  | .key | .value | .indentedEnd => true
  | _ => false

/-- The tokens before which an item is missing whose dashes stand at the column of a key. -/
def endsEntryItem : Token → Bool
  | .item | .key | .value | .indentedEnd => true
  | _ => false

/-- The tokens before which another item is missing. -/
def endsItem : Token → Bool
  | .item | .indentedEnd => true
  | _ => false

/-- The tokens before which a node inside brackets is missing, `close` being the closing one. -/
def endsBracketed (close : Token) : Token → Bool
  | .comma => true
  | token => token = close

mutual

/-- Reads a node, which is empty before some tokens. -/
def readMaybe (handles : List (List Char × List Char)) :
    Nat → Position → (Token → Bool) → Source → Option (Node × Source)
  | 0, _, _, _ => none
  | fuel + 1, position, isEnd, source =>
    if source.tokens.head?.any isEnd then some (.empty, source)
    else readNode handles fuel position source

/-- Reads a node: an alias, or an anchor, a tag and what they are about. -/
def readNode (handles : List (List Char × List Char)) :
    Nat → Position → Source → Option (Node × Source)
  | 0, _, _ => none
  | fuel + 1, position, source =>
    match source.tokens with
    | .reference name :: rest =>
      (source.names.lookup name).map fun number => (.reference number, source.withTokens rest)
    | _ =>
      let (name, tag, rest) := source.properties
      match tag.mapM (Tag.text? handles) with
      | none => none
      | some text =>
        -- an anchor or a tag alone stands for a node that is empty
        let isBare := name.isNone && tag.isNone
        match name with
        | none => readContent handles fuel position isBare text (source.withTokens rest)
        | some name =>
          let (number, source) := (source.withTokens rest).define name
          (readContent handles fuel position isBare text source).map fun (node, source) =>
            (.anchored number node, source)

/-- Reads what stands behind an anchor and a tag. Nothing need follow them, but without them
something has to be there. -/
def readContent (handles : List (List Char × List Char)) :
    Nat → Position → Bool → Option (List Char) → Source → Option (Node × Source)
  | 0, _, _, _, _ => none
  | fuel + 1, position, isBare, tag, source =>
    match source.tokens with
    | .scalar style text :: rest => some (.scalar ⟨style, tag, text⟩, source.withTokens rest)
    | .openItems :: rest =>
      (readBracketedItems handles fuel (source.withTokens rest)).map fun (items, source) =>
        (.sequence items, source)
    | .openEntries :: rest =>
      (readBracketedEntries handles fuel (source.withTokens rest)).map fun (entries, source) =>
        (.mapping entries, source)
    | token :: rest =>
      if token = .item && position = .entry then
        (readEntryItems handles fuel source).map fun (items, source) => (.sequence items, source)
      else if token = .sequenceStart && position ≠ .bracketed then
        (readItems handles fuel (source.withTokens rest)).map fun (items, source) =>
          (.sequence items, source)
      else if token = .mappingStart && position ≠ .bracketed then
        (readEntries handles fuel (source.withTokens rest)).map fun (entries, source) =>
          (.mapping entries, source)
      else if isBare then none
      else some (.scalar ⟨.plain, tag, []⟩, source)
    | [] => if isBare then none else some (.scalar ⟨.plain, tag, []⟩, source)

def readItems (handles : List (List Char × List Char)) :
    Nat → Source → Option (List Node × Source)
  | 0, _ => none
  | fuel + 1, source =>
    match source.tokens with
    | .item :: rest =>
      match readMaybe handles fuel .indented endsItem (source.withTokens rest) with
      | none => none
      | some (item, source) =>
        (readItems handles fuel source).map fun (items, source) => (item :: items, source)
    | .indentedEnd :: rest => some ([], source.withTokens rest)
    | _ => none

/-- Reads the items of a sequence whose dashes stand at the column of a key. -/
def readEntryItems (handles : List (List Char × List Char)) :
    Nat → Source → Option (List Node × Source)
  | 0, _ => none
  | fuel + 1, source =>
    match source.tokens with
    | .item :: rest =>
      match readMaybe handles fuel .indented endsEntryItem (source.withTokens rest) with
      | none => none
      | some (item, source) =>
        (readEntryItems handles fuel source).map fun (items, source) => (item :: items, source)
    | _ => some ([], source)

def readEntries (handles : List (List Char × List Char)) :
    Nat → Source → Option (List (Node × Node) × Source)
  | 0, _ => none
  | fuel + 1, source =>
    match source.tokens with
    | .key :: rest =>
      match readMaybe handles fuel .entry endsEntryPart (source.withTokens rest) with
      | none => none
      | some (key, source) =>
        match readValue handles fuel .entry endsEntryPart source with
        | none => none
        | some (value, source) =>
          (readEntries handles fuel source).map fun (entries, source) =>
            ((key, value) :: entries, source)
    | .indentedEnd :: rest => some ([], source.withTokens rest)
    | _ => none

/-- Reads the value of an entry. Without a colon it is empty. -/
def readValue (handles : List (List Char × List Char)) :
    Nat → Position → (Token → Bool) → Source → Option (Node × Source)
  | 0, _, _, _ => none
  | fuel + 1, position, isEnd, source =>
    match source.tokens with
    | .value :: rest => readMaybe handles fuel position isEnd (source.withTokens rest)
    | _ => some (.empty, source)

/-- Reads items through the closing bracket. A comma may stand behind the last one. -/
def readBracketedItems (handles : List (List Char × List Char)) :
    Nat → Source → Option (List Node × Source)
  | 0, _ => none
  | fuel + 1, source =>
    match source.tokens with
    | .closeItems :: rest => some ([], source.withTokens rest)
    | _ =>
      match readBracketedItem handles fuel source with
      | none => none
      | some (item, source) =>
        match source.tokens with
        | .comma :: rest =>
          (readBracketedItems handles fuel (source.withTokens rest)).map fun (items, source) =>
            (item :: items, source)
        | .closeItems :: rest => some ([item], source.withTokens rest)
        | _ => none

/-- Reads an item inside brackets. An item with a key is a mapping of one entry; where the key is
missing, the token that shows it is passed over. -/
def readBracketedItem (handles : List (List Char × List Char)) :
    Nat → Source → Option (Node × Source)
  | 0, _ => none
  | fuel + 1, source =>
    match source.tokens with
    | .key :: rest =>
      let key :=
        match rest with
        | .value :: rest | .comma :: rest | .closeItems :: rest =>
          some (.empty, source.withTokens rest)
        | rest => readNode handles fuel .bracketed (source.withTokens rest)
      match key with
      | none => none
      | some (key, source) =>
        (readValue handles fuel .bracketed (endsBracketed .closeItems) source).map
          fun (value, source) => (.mapping [(key, value)], source)
    | _ => readNode handles fuel .bracketed source

def readBracketedEntries (handles : List (List Char × List Char)) :
    Nat → Source → Option (List (Node × Node) × Source)
  | 0, _ => none
  | fuel + 1, source =>
    match source.tokens with
    | .closeEntries :: rest => some ([], source.withTokens rest)
    | _ =>
      match readBracketedEntry handles fuel source with
      | none => none
      | some (entry, source) =>
        match source.tokens with
        | .comma :: rest =>
          (readBracketedEntries handles fuel (source.withTokens rest)).map fun (entries, source) =>
            (entry :: entries, source)
        | .closeEntries :: rest => some ([entry], source.withTokens rest)
        | _ => none

/-- Reads an entry inside braces. A node that is no key is one with an empty value. -/
def readBracketedEntry (handles : List (List Char × List Char)) :
    Nat → Source → Option ((Node × Node) × Source)
  | 0, _ => none
  | fuel + 1, source =>
    match source.tokens with
    | .key :: rest =>
      let isEnd := fun token => token = .value || endsBracketed .closeEntries token
      match readMaybe handles fuel .bracketed isEnd (source.withTokens rest) with
      | none => none
      | some (key, source) =>
        (readValue handles fuel .bracketed (endsBracketed .closeEntries) source).map
          fun (value, source) => ((key, value), source)
    | _ =>
      (readNode handles fuel .bracketed source).map fun (key, source) => ((key, .empty), source)

end

def spanDirectives : List Token → List Directive × List Token
  | .directive directive :: rest =>
    let (directives, rest) := spanDirectives rest
    (directive :: directives, rest)
  | rest => ([], rest)

/-- The handles that directives declare. No handle is declared twice; there is at most one version,
which is 1.1 or 1.2. -/
def handlesOf? : List Directive → Option (List (List Char × List Char))
  | [] => some []
  | .version major minor :: rest => do
    let isSecond := rest.any fun
      | .version _ _ => true
      | .handle _ _ => false
    let handles ← handlesOf? rest
    if major = 1 && (minor = 1 || minor = 2) && !isSecond then pure handles else none
  | .handle handle expansion :: rest => do
    let handles ← handlesOf? rest
    if (handles.lookup handle).isSome then none else pure ((handle, expansion) :: handles)

/-- Reads the node of a document that ends its text. Between two tokens the readers call one another
fewer than eight times, so the fuel lasts. -/
def readRoot? (handles : List (List Char × List Char)) (tokens : List Token) : Option Node := do
  let (node, source) ← readNode handles (8 * tokens.length + 8) .indented ⟨tokens, []⟩
  if source.tokens.all (· = .documentEnd) then pure node else none

def Node.ofTokens? (tokens : List Token) : Option Node :=
  match spanDirectives tokens with
  | ([], []) => some .empty
  | (directives, .documentStart :: rest) => do
    let handles ← handlesOf? directives
    if rest.all (· = .documentEnd) then pure .empty else readRoot? handles rest
  | ([], tokens) => readRoot? [] tokens
  | _ => none

def Node.ofText? (text : List Char) : Option Node :=
  if text.all isPrintable then (tokensOf? (joinBreaks text)).bind Node.ofTokens? else none

end RhythmTiles.Yaml
