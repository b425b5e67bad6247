/-!
# Document values

The values a document can hold. Whole numbers are kept apart from doubles, and an object is a list
of members, so that a document can be written in the order its author chose; `Json.ofMembers`
gives the sorted form that read objects have.
-/

namespace RhythmTiles

inductive Json where
  | null
  | bool (value : Bool)
  | int (value : Int)
  | float (value : Float)
  | string (value : String)
  | array (items : List Json)
  | object (members : List (String × Json))
  deriving Inhabited

namespace Json

/-- Puts a member into a list sorted by key, in place of one with the same key. -/
def putMember (key : String) (value : Json) : List (String × Json) → List (String × Json)
  | [] => [(key, value)]
  | (k, v) :: members =>
    if key = k then (key, value) :: members
    else if key < k then (key, value) :: (k, v) :: members
    else (k, v) :: putMember key value members

/-- The object with the given members: sorted by key, and of two members with one key the last. -/
def ofMembers (members : List (String × Json)) : Json :=
  object (members.foldl (fun sorted m => putMember m.1 m.2 sorted) [])

/-- The member of an object under a key; `null` counts as absent. -/
def member? (members : List (String × Json)) (key : String) : Option Json :=
  match members.lookup key with
  | some null => none
  | found => found

def toFloat? : Json → Option Float
  | int n => some (Float.ofInt n)
  | float x => some x
  | _ => none

end Json

end RhythmTiles
