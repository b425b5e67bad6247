import RhythmTiles.Command

/-!
# The program

Runs the command on the files of the system.
-/

namespace RhythmTiles.Program

def faultOf (error : IO.Error) : Command.FileFault :=
  match error with
  | .noFileOrDirectory _ _ _ => .notFound
  | .inappropriateType _ _ _ => .isDirectory
  | error => .other error.toString

def tryRead (path : String) : IO (Except Command.FileFault String) :=
  try
    let text ← IO.FS.readFile path
    pure (.ok text)
  catch error => pure (.error (faultOf error))

def tryWrite (path text : String) : IO (Except Command.FileFault Unit) :=
  try
    IO.FS.writeFile path text
    pure (.ok ())
  catch error => pure (.error (faultOf error))

def filesOf : Command.Request → List String
  | .compile options level _ => options.toList ++ [level]
  | _ => []

/-- Prints an outcome, and gives its code. -/
def report (outcome : Command.Outcome) : IO UInt32 := do
  IO.print outcome.stdout
  IO.eprint outcome.stderr
  pure outcome.exit.toUInt32

end RhythmTiles.Program

open RhythmTiles Program in
/-- Compiles the level that the arguments name. -/
def main (args : List String) : IO UInt32 := do
  let names := filesOf (Command.readArguments none [] args)
  let texts ← names.mapM fun name => do pure (name, ← tryRead name)
  let read := fun name => (texts.lookup name).getD (.error .notFound)
  let outcome := Command.run read args
  match outcome.write with
  | none => report outcome
  | some write =>
    match ← tryWrite write.path write.content with
    | .ok () => report { outcome with stderr := outcome.stderr ++ write.report }
    | .error fault => report (Command.failedWrite write.path fault)
