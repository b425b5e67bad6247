import RhythmTiles.Decimal.Numeral
import RhythmTiles.Yaml.Token

/-!
# Settings nodes

The tree of a settings text, and how records and numbers are taken from it. An alias stands for the
node with its number, so nodes are looked at beside the root that holds them. A record lists the
keys it knows; other keys are passed over, and a known key may be given once.
-/

namespace RhythmTiles.Yaml

structure Scalar where
  style : Style
  tag : Option (List Char)
  text : List Char

inductive Node where
  | scalar (scalar : Scalar)
  | sequence (items : List Node)
  | mapping (entries : List (Node × Node))
  /-- A node that aliases stand for by its number. -/
  | anchored (number : Nat) (node : Node)
  /-- An alias of an anchored node. -/
  | reference (number : Nat)

/-- The number that an unquoted scalar is: a finite numeral, or a word for infinity or for no
number behind a point. -/
def number? (text : List Char) : Option Float :=
  let unsigned :=
    match text with
    | '+' :: rest => rest
    | _ => text
  let twoSigns :=
    text.head? == some '+' && (unsigned.head? == some '+' || unsigned.head? == some '-')
  if twoSigns then none
  else if [".inf", ".Inf", ".INF"].contains (String.ofList unsigned) then some (1 / 0)
  else if ["-.inf", "-.Inf", "-.INF"].contains (String.ofList text) then some (-1 / 0)
  else if [".nan", ".NaN", ".NAN"].contains (String.ofList text) then some (0 / 0)
  else (Decimal.floatOfText? unsigned).bind fun x => if x.isFinite then some x else none

/-- The number that a scalar is: it has no quotes, or it is literal and its tag says that it is a
number. -/
def Scalar.number? (scalar : Scalar) : Option Float :=
  if scalar.style = .plain
      || (scalar.style = .literal && scalar.tag == some "tag:yaml.org,2002:float".toList) then
    Yaml.number? scalar.text
  else none

namespace Node

/-- Nothing written where a node is expected. -/
def empty : Node := .scalar ⟨.plain, none, []⟩

mutual

/-- The nodes with a number, in the order in which they start. -/
def withNumber (number : Nat) : Node → List Node
  | .scalar _ => []
  | .sequence items => withNumberItems number items
  | .mapping entries => withNumberEntries number entries
  | .anchored n node =>
    let inner := node.withNumber number
    if n = number then node :: inner else inner
  | .reference _ => []

def withNumberItems (number : Nat) : List Node → List Node
  | [] => []
  | item :: items => item.withNumber number ++ withNumberItems number items

def withNumberEntries (number : Nat) : List (Node × Node) → List Node
  | [] => []
  | (key, value) :: entries =>
    key.withNumber number ++ value.withNumber number ++ withNumberEntries number entries

end

/-- What a node stands for under a root. Of the nodes with one number the last one counts. -/
def resolve (root : Node) : Node → Node
  | anchored _ node => node
  | reference number => ((root.withNumber number).getLast?).getD empty
  | node => node

/-- The text of a key, which has to be a scalar. -/
def keyText? (root node : Node) : Option (List Char) :=
  match root.resolve node with
  | scalar s => some s.text
  | _ => none

/-- The entries under known keys. Every key has to be a scalar. -/
def knownEntries? (root : Node) (known : List String) :
    List (Node × Node) → Option (List (String × Node))
  | [] => some []
  | (key, value) :: entries => do
    let text ← root.keyText? key
    let rest ← knownEntries? root known entries
    let name := String.ofList text
    if known.contains name then
      if (rest.lookup name).isSome then none else pure ((name, value) :: rest)
    else pure rest

/-- The fields of a record. A node that is not there is a record without fields. -/
def fields? (root : Node) (known : List String) (node : Node) : Option (List (String × Node)) :=
  match root.resolve node with
  | mapping entries => root.knownEntries? known entries
  | scalar s => if s.style = .plain && s.text.isEmpty then some [] else none
  | _ => none

/-- The number in a field, or the default where the field is missing. -/
def numberField? (root : Node) (fields : List (String × Node)) (key : String) (default : Float) :
    Option Float :=
  match fields.lookup key with
  | none => some default
  | some node =>
    match root.resolve node with
    | scalar s => s.number?
    | _ => none

end Node

end RhythmTiles.Yaml
