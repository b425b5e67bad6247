import RhythmTiles.Compiled.Document

/-!
# The command line

The command compiles the level of one file and prints it, or writes it to another file. What it does
is a function of its arguments and of the files it reads: an `Outcome` says what is printed, what is
written, and with which code the command ends.
-/

namespace RhythmTiles.Command

/-- Why a file cannot be read or written. -/
inductive FileFault where
  | notFound
  | isDirectory
  | notDirectory
  /-- Any other reason, in the words of the system. -/
  | other (text : String)

def FileFault.message : FileFault → String
  | notFound => "No such file or directory (os error 2)"
  | isDirectory => "Is a directory (os error 21)"
  | notDirectory => "Not a directory (os error 20)"
  | other text => text

def usage : String :=
  "Usage: tilescore [-v] [--options <file.yaml>] <level.json> [output.json]"

/-- What the arguments ask for. -/
inductive Request where
  | help
  | misused
  | compile (options : Option String) (level : String) (output : Option String)
  deriving DecidableEq, Repr

/-- Reads arguments, after the options file and the file names before them, the last name first. -/
def readArguments (options : Option String) (names : List String) : List String → Request
  | [] =>
    match names with
    | [level] => .compile options level none
    | [output, level] => .compile options level (some output)
    | _ => .misused
  | "-v" :: args => readArguments options names args
  | "--verbose" :: args => readArguments options names args
  | "-h" :: _ => .help
  | "--help" :: _ => .help
  -- no file is left for the flag
  | ["--options"] => .misused
  | "--options" :: file :: args => readArguments (some file) names args
  | name :: args => readArguments options (name :: names) args

/-- A file to be written, and what is reported once it is. -/
structure FileWrite where
  path : String
  content : String
  report : String
  deriving DecidableEq, Repr

structure Outcome where
  exit : Nat
  stdout : String
  stderr : String
  write : Option FileWrite
  deriving DecidableEq, Repr

/-- The command fails with a line on the error stream. -/
def fail (line : String) : Outcome := ⟨1, "", line ++ "\n", none⟩

def failedWrite (path : String) (fault : FileFault) : Outcome :=
  fail (s!"Error writing to '{path}': " ++ fault.message)

variable (read : String → Except FileFault String)

def readFile (path : String) : Except Outcome String :=
  (read path).mapError fun fault => fail (s!"Error reading file '{path}': " ++ fault.message)

/-- The options of a file, or the default ones where no file is named. -/
def readOptions : Option String → Except Outcome Options
  | none => .ok .default
  | some path => do
    let text ← readFile read path
    match Options.ofText? text with
    | some options => pure options
    | none => .error (fail s!"Error in '{path}': Invalid level: invalid options:")

def compileFile (options : Options) (path : String) : Except Outcome Compiled := do
  let text ← readFile read path
  (Compiled.ofText options text).mapError fun fault =>
    fail ("Compilation error: " ++ fault.message)

/-- Prints a compiled level, or writes it where an output is named. -/
def deliver (compiled : Compiled) (output : Option String) : Outcome :=
  let text := compiled.toJson.pretty
  match output with
  | none => ⟨0, text ++ "\n", "", none⟩
  | some path =>
    let rows := compiled.rows.length
    let notes := compiled.timeline.noteCount
    ⟨0, "", "", some ⟨path, text, s!"Wrote {rows} rows and {notes} notes to {path}\n"⟩⟩

/-- What a request comes to, before anything is written. -/
def answer : Request → Outcome
  | .help => ⟨0, usage ++ "\n", "", none⟩
  | .misused => fail usage
  | .compile optionsFile levelFile output =>
    let result : Except Outcome Outcome := do
      let options ← readOptions read optionsFile
      let compiled ← compileFile read options levelFile
      pure (deliver compiled output)
    match result with
    | .ok outcome => outcome
    | .error outcome => outcome

def run (args : List String) : Outcome := answer read (readArguments none [] args)

end RhythmTiles.Command
