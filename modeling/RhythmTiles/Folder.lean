import RhythmTiles.Command

/-!
# Runs in a folder

A folder holds texts under file names and has no folders inside. `Folder.run` runs the command in
it, and says what is printed and what the folder holds afterwards.
-/

namespace RhythmTiles

/-- The files of a folder, with their texts. -/
structure Folder where
  files : List (String × String)
  deriving DecidableEq, Repr

namespace Folder

open Command (FileFault Outcome)

/-- The parts of a path between slashes, from the folder on. -/
def steps (path : String) : List String :=
  ((path.toList.splitOn '/').map String.ofList).filter fun step => step != "" && step != "."

/-- The name of the file that a path leads to, or why there is none. A path that ends with a slash or
a dot leads to a folder. -/
def resolve (folder : Folder) (path : String) : Except FileFault String :=
  let last := (path.toList.splitOn '/').getLast?.getD []
  if path = "" then .error .notFound
  -- outside the folder there is nothing but the root
  else if path.toList.head? = some '/' then
    .error (if (steps path).isEmpty then .isDirectory else .notFound)
  else
    match steps path with
    | [] => .error .isDirectory
    | [name] =>
      if name = ".." then .error .isDirectory
      else if last.isEmpty || last == ['.'] then
        .error (if (folder.files.lookup name).isSome then .notDirectory else .notFound)
      else .ok name
    | name :: _ =>
      .error (if (folder.files.lookup name).isSome then .notDirectory else .notFound)

def read (folder : Folder) (path : String) : Except FileFault String := do
  let name ← folder.resolve path
  match folder.files.lookup name with
  | some text => pure text
  | none => .error .notFound

def put (folder : Folder) (name text : String) : Folder :=
  ⟨(name, text) :: folder.files.filter fun file => file.1 != name⟩

/-- A run of the command: what it prints, and the folder after it. -/
structure Run where
  exit : Nat
  stdout : String
  stderr : String
  folder : Folder
  deriving DecidableEq, Repr

/-- Carries out the write of an outcome. -/
def carryOut (folder : Folder) (outcome : Outcome) : Run :=
  match outcome.write with
  | none => ⟨outcome.exit, outcome.stdout, outcome.stderr, folder⟩
  | some write =>
    match folder.resolve write.path with
    | .ok name =>
      ⟨outcome.exit, outcome.stdout, outcome.stderr ++ write.report, folder.put name write.content⟩
    | .error fault =>
      let failed := Command.failedWrite write.path fault
      ⟨failed.exit, failed.stdout, failed.stderr, folder⟩

def run (folder : Folder) (args : List String) : Run :=
  folder.carryOut (Command.run folder.read args)

end Folder

end RhythmTiles
