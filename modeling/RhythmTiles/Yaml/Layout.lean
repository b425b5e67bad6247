import RhythmTiles.Yaml.Token
import RhythmTiles.Yaml.Quoted
import RhythmTiles.Yaml.Plain
import RhythmTiles.Yaml.Indented

/-!
# Layout of settings texts

How lines, columns and brackets make the tokens of a text. A collection without brackets starts with
a token at a deeper column than that of the collection around it, and ends before a token at a
column before its own. Whether a token starts a key shows only at a colon behind it on the same line
and not too far away, so the token is remembered until then.
-/

namespace RhythmTiles.Yaml

/-- A place in a text: how many characters are before it, on which line and at which column. -/
structure Place where
  index : Nat
  line : Nat
  column : Nat

namespace Place

def step (place : Place) (c : Char) : Place :=
  if isBreak c then ⟨place.index + 1, place.line + 1, 0⟩
  else ⟨place.index + 1, place.line, place.column + 1⟩

end Place

/-- A token that starts a key if a colon follows. -/
structure KeyStart where
  place : Place
  /-- How many tokens are before it. -/
  order : Nat
  /-- Whether nothing but a key can stand there. -/
  required : Bool

/-- The start of a key at a later place: it is given up behind the end of its line, and behind more
than 1024 characters. -/
def KeyStart.at? (place : Place) : Option KeyStart → Option (Option KeyStart)
  | none => some none
  | some start =>
    if start.place.line < place.line || start.place.index + 1024 < place.index then
      if start.required then none else some none
    else some (some start)

/-- How far a text is read. -/
structure Layout where
  rest : List Char
  place : Place
  /-- The tokens, the last one first. -/
  tokens : List Token
  /-- The columns of the open collections without brackets, the innermost first. -/
  columns : List Nat
  /-- The token that may start a key inside the innermost brackets. -/
  keyStart : Option KeyStart
  /-- The same around each open bracket, the innermost first. -/
  outerStarts : List (Option KeyStart)
  /-- Whether a key may start at the next token. -/
  keyAllowed : Bool

/-- Drops what stands between tokens: blanks, comments and breaks of lines, and one byte order mark
at the start of each line. A tab is dropped where no key can start. Outside brackets a key may start
on a new line. -/
def skipBetween (inBrackets : Bool) : Bool → Bool → Bool → List Char → Bool × List Char
  | keyAllowed, _, _, [] => (keyAllowed, [])
  | keyAllowed, atStart, inComment, c :: cs =>
    if isBreak c then skipBetween inBrackets (keyAllowed || !inBrackets) true false cs
    else if inComment || c == ' ' || (c == '\t' && (inBrackets || !keyAllowed))
        || (c == '\ufeff' && atStart) then
      skipBetween inBrackets keyAllowed false inComment cs
    else if c == '#' then skipBetween inBrackets keyAllowed false true cs
    else (keyAllowed, c :: cs)

namespace Layout

def ofText (text : List Char) : Layout := ⟨text, ⟨0, 0, 0⟩, [], [], none, [], true⟩

def inBrackets (layout : Layout) : Bool := !layout.outerStarts.isEmpty

/-- The first column inside the innermost collection without brackets. -/
def low (layout : Layout) : Nat :=
  match layout.columns with
  | [] => 0
  | column :: _ => column + 1

def moveTo (layout : Layout) (rest : List Char) : Layout :=
  let passed := layout.rest.take (layout.rest.length - rest.length)
  { layout with rest := rest, place := passed.foldl Place.step layout.place }

def push (layout : Layout) (token : Token) : Layout :=
  { layout with tokens := token :: layout.tokens }

/-- Adds a token behind the first `order` ones. -/
def insert (layout : Layout) (order : Nat) (token : Token) : Layout :=
  { layout with tokens := layout.tokens.insertIdx (layout.tokens.length - order) token }

def allowKey (layout : Layout) (allowed : Bool) : Layout := { layout with keyAllowed := allowed }

/-- Ends the collections without brackets at column `low` and deeper. -/
def closeFrom (layout : Layout) (low : Nat) : Layout :=
  if layout.inBrackets then layout
  else
    let columns := layout.columns.dropWhile (low ≤ ·)
    let ends := List.replicate (layout.columns.length - columns.length) Token.indentedEnd
    { layout with tokens := ends ++ layout.tokens, columns := columns }

/-- Starts a collection without brackets at a column, behind the first `order` tokens, unless one is
open there. -/
def openAt (layout : Layout) (column order : Nat) (start : Token) : Layout :=
  if layout.inBrackets || column < layout.low then layout
  else { layout.insert order start with columns := column :: layout.columns }

/-- Gives up the start of a key, unless nothing else can stand there. -/
def dropKeyStart? (layout : Layout) : Option Layout :=
  if layout.keyStart.any (·.required) then none else some { layout with keyStart := none }

def dropOldStarts? (layout : Layout) : Option Layout := do
  let keyStart ← KeyStart.at? layout.place layout.keyStart
  let outerStarts ← layout.outerStarts.mapM (KeyStart.at? layout.place)
  pure { layout with keyStart := keyStart, outerStarts := outerStarts }

/-- Remembers that the next token may start a key. At the column of the collection around it nothing
else can stand. -/
def markKeyStart? (layout : Layout) : Option Layout :=
  if layout.keyAllowed then do
    let layout ← layout.dropKeyStart?
    let required := !layout.inBrackets && layout.columns.head? == some layout.place.column
    pure { layout with keyStart := some ⟨layout.place, layout.tokens.length, required⟩ }
  else some layout

/-- Goes on to the next token, and ends the collections that do not reach its column. -/
def toToken? (layout : Layout) : Option Layout := do
  let atStart := layout.place.column == 0
  let (keyAllowed, rest) :=
    skipBetween layout.inBrackets layout.keyAllowed atStart false layout.rest
  let layout ← ((layout.moveTo rest).allowKey keyAllowed).dropOldStarts?
  pure (layout.closeFrom (layout.place.column + 1))

/-- Ends everything before a line that is about documents. -/
def closeDocument? (layout : Layout) : Option Layout := do
  let layout ← (layout.closeFrom 0).dropKeyStart?
  pure (layout.allowKey false)

def directive? (layout : Layout) (cs : List Char) : Option Layout := do
  let layout ← layout.closeDocument?
  let (directive, rest) ← readDirective? cs
  pure ((layout.push (.directive directive)).moveTo rest)

def marker? (layout : Layout) (token : Token) : Option Layout := do
  let layout ← layout.closeDocument?
  pure ((layout.push token).moveTo (layout.rest.drop 3))

def openBracket? (layout : Layout) (token : Token) (cs : List Char) : Option Layout := do
  let layout ← layout.markKeyStart?
  let starts := layout.keyStart :: layout.outerStarts
  let inner := { layout with keyStart := none, outerStarts := starts }
  pure (((inner.allowKey true).push token).moveTo cs)

def closeBracket? (layout : Layout) (token : Token) (cs : List Char) : Option Layout := do
  let layout ← layout.dropKeyStart?
  let outer :=
    match layout.outerStarts with
    | [] => layout
    | start :: starts => { layout with keyStart := start, outerStarts := starts }
  pure (((outer.allowKey false).push token).moveTo cs)

def comma? (layout : Layout) (cs : List Char) : Option Layout := do
  let layout ← layout.dropKeyStart?
  pure (((layout.allowKey true).push .comma).moveTo cs)

/-- Starts a collection without brackets at a mark, which has to stand where a key may. -/
def openAtMark? (layout : Layout) (start : Token) : Option Layout :=
  if layout.inBrackets then some layout
  else if layout.keyAllowed then
    some (layout.openAt layout.place.column layout.tokens.length start)
  else none

def item? (layout : Layout) (cs : List Char) : Option Layout := do
  let layout ← layout.openAtMark? .sequenceStart
  let layout ← layout.dropKeyStart?
  pure (((layout.allowKey true).push .item).moveTo cs)

def key? (layout : Layout) (cs : List Char) : Option Layout := do
  let layout ← layout.openAtMark? .mappingStart
  let layout ← layout.dropKeyStart?
  pure (((layout.allowKey !layout.inBrackets).push .key).moveTo cs)

/-- Reads the colon of a value. It makes a key of the token that may start one. -/
def value? (layout : Layout) (cs : List Char) : Option Layout :=
  match layout.keyStart with
  | some start =>
    -- the marks of the key and of its mapping go before the token that turns out to be one
    let keyed := { layout with keyStart := none }.insert start.order .key
    let layout := keyed.openAt start.place.column start.order .mappingStart
    some (((layout.allowKey false).push .value).moveTo cs)
  | none => do
    let layout ← layout.openAtMark? .mappingStart
    pure (((layout.allowKey !layout.inBrackets).push .value).moveTo cs)

/-- Adds a token that may start a key and behind which no key can start. -/
def pushStart? (layout : Layout) (read : Option (Token × List Char)) : Option Layout := do
  let layout ← layout.markKeyStart?
  let (token, rest) ← read
  pure (((layout.allowKey false).push token).moveTo rest)

def indented? (layout : Layout) (style : Style) (cs : List Char) : Option Layout := do
  let layout ← layout.dropKeyStart?
  let (text, rest) ← readIndentedScalar? (style == .folded) layout.low cs
  pure (((layout.allowKey true).push (.scalar style text)).moveTo rest)

/-- Reads an unquoted scalar. A key may start behind it on a new line. -/
def plain? (layout : Layout) : Option Layout := do
  let layout ← layout.markKeyStart?
  let (text, isBroken, rest) ← readPlain layout.inBrackets layout.low .empty layout.rest
  pure (((layout.allowKey isBroken).push (.scalar .plain text)).moveTo rest)

def token? (layout : Layout) : Option Layout :=
  let atStart := layout.place.column == 0
  if atStart && layout.rest.head? == some '%' then layout.directive? (layout.rest.drop 1)
  else if atStart && atMarker '-' layout.rest then layout.marker? .documentStart
  else if atStart && atMarker '.' layout.rest then layout.marker? .documentEnd
  else if startsPlain layout.inBrackets layout.rest then layout.plain?
  else
    match layout.rest with
    | '[' :: cs => layout.openBracket? .openItems cs
    | '\x7b' :: cs => layout.openBracket? .openEntries cs
    | ']' :: cs => layout.closeBracket? .closeItems cs
    | '\x7d' :: cs => layout.closeBracket? .closeEntries cs
    | ',' :: cs => layout.comma? cs
    | '-' :: cs => layout.item? cs
    | '?' :: cs => layout.key? cs
    | ':' :: cs => layout.value? cs
    | '*' :: cs => layout.pushStart? ((readName? cs).map fun (name, rest) => (.reference name, rest))
    | '&' :: cs => layout.pushStart? ((readName? cs).map fun (name, rest) => (.anchor name, rest))
    | '!' :: cs =>
      layout.pushStart? ((readTag? layout.inBrackets cs).map fun (tag, rest) => (.tag tag, rest))
    | '\'' :: cs =>
      layout.pushStart?
        ((readSingle .empty cs).map fun (text, rest) => (.scalar .quoted text, rest))
    | '"' :: cs =>
      layout.pushStart?
        ((readDouble .empty cs).map fun (text, rest) => (.scalar .quoted text, rest))
    | '|' :: cs => if layout.inBrackets then none else layout.indented? .literal cs
    | '>' :: cs => if layout.inBrackets then none else layout.indented? .folded cs
    | _ => none

/-- Reads tokens to the end of the text; each takes a character at least. -/
def tokens? : Nat → Layout → Option (List Token)
  | 0, _ => none
  | fuel + 1, layout => do
    let layout ← layout.toToken?
    if layout.rest.isEmpty then
      let layout ← layout.closeDocument?
      pure layout.tokens.reverse
    else
      let layout ← layout.token?
      layout.tokens? fuel

end Layout

def tokensOf? (text : List Char) : Option (List Token) :=
  (Layout.ofText text).tokens? (text.length + 1)

end RhythmTiles.Yaml
