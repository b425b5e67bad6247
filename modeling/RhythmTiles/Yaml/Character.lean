/-!
# Characters of settings texts

Which characters a settings text may hold, and the classes that its grammar is written in: blanks,
breaks of lines, brackets, and the characters with a meaning of their own.
-/

namespace RhythmTiles.Yaml

/-- Whether a character may stand in a settings text. -/
def isPrintable (c : Char) : Bool :=
  c == '\t' || c == '\n' || c == '\r' || (' ' ≤ c && c ≤ '~') || c == '\u0085'
    || ('\u00a0' ≤ c && c != '\ufffe' && c != '\uffff')

/-- Writes every break of lines as one character. Line and paragraph separators keep their own. -/
def joinBreaks : List Char → List Char
  | [] => []
  | '\r' :: '\n' :: cs => '\n' :: joinBreaks cs
  | c :: cs => if c == '\r' || c == '\u0085' then '\n' :: joinBreaks cs else c :: joinBreaks cs

/-- A space or a tab. -/
def isSpace (c : Char) : Bool := c == ' ' || c == '\t'

def isBreak (c : Char) : Bool := c == '\n' || c == '\u2028' || c == '\u2029'

def isGap (c : Char) : Bool := isSpace c || isBreak c

/-- Whether a word ends here: before a blank, a break of lines or the end of the text. -/
def atGap : List Char → Bool
  | [] => true
  | c :: _ => isGap c

def skipSpaces (cs : List Char) : List Char := cs.dropWhile isSpace

/-- The text behind a line on which nothing but blanks and a comment may stand. -/
def afterLine? (cs : List Char) : Option (List Char) :=
  match skipSpaces cs with
  | [] => some []
  | c :: rest =>
    if c == '#' then some ((rest.dropWhile fun c => !isBreak c).drop 1)
    else if isBreak c then some rest
    else none

/-- The characters that set brackets and separate what is inside. -/
def isBracket (c : Char) : Bool := c == ',' || c == '[' || c == ']' || c == '\x7b' || c == '\x7d'

/-- The characters with a meaning of their own, which no unquoted scalar starts with. -/
def isIndicator (c : Char) : Bool :=
  isBracket c || "-?:#&*!|>'\"%@\x60".toList.contains c

/-- The characters that names of anchors and handles of tags are made of. -/
def isNameChar (c : Char) : Bool := c.isAlphanum || c == '_' || c == '-'

/-- Whether a mark of three characters stands here as a word. -/
def atMarker (mark : Char) : List Char → Bool
  | a :: b :: c :: rest => a == mark && b == mark && c == mark && atGap rest
  | _ => false

/-- Whether a line that goes on so starts a document or ends one. -/
def atDocumentMarker (cs : List Char) : Bool := atMarker '-' cs || atMarker '.' cs

end RhythmTiles.Yaml
