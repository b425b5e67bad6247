import Mathlib
import RhythmTiles.Command

/-!
# What arguments ask for

The words of a command line are a list of arguments: flags, a settings file behind its flag, names. What
they ask for does not depend on how they are mixed (`readArguments_eq`): a call for help wins, then a flag
without its file, and the names count in their order, the last settings file alone. So a name at the end
is one name more (`readArguments_append_name`), and one more call for details anywhere but behind `--options`
changes nothing (`readArguments_insert_verbose`).
-/

namespace RhythmTiles.Command

inductive Argument where
  | verbose
  | help
  /-- A settings file; there is none where the words end behind the flag. -/
  | options (file : Option String)
  | name (name : String)
  deriving DecidableEq

namespace Argument

def ofWord (word : String) : Argument :=
  if word = "-v" ∨ word = "--verbose" then .verbose
  else if word = "-h" ∨ word = "--help" then .help
  else .name word

/-- The arguments of a command line. The word behind `--options` is a file, whatever it is. -/
def ofWords : List String → List Argument
  | [] => []
  | ["--options"] => [.options none]
  | "--options" :: file :: words => .options (some file) :: ofWords words
  | word :: words => ofWord word :: ofWords words

def name? : Argument → Option String
  | name n => some n
  | _ => none

def file? : Argument → Option String
  | options file => file
  | _ => none

end Argument

open Argument (ofWord ofWords)

/-- The words that are no names. -/
def flagWords : List String := ["-v", "--verbose", "-h", "--help", "--options"]

def names (args : List String) : List String := (ofWords args).filterMap Argument.name?

/-- The request for files: a level, or a level and where its text goes. -/
def requestOfNames (options : Option String) : List String → Request
  | [level] => .compile options level none
  | [level, output] => .compile options level (some output)
  | _ => .misused

/-- What arguments ask for, behind a settings file and names. -/
def requestBehind (options : Option String) (earlier : List String) (arguments : List Argument) :
    Request :=
  if .help ∈ arguments then .help
  else if .options none ∈ arguments then .misused
  else requestOfNames ((arguments.filterMap Argument.file?).getLast?.or options)
    (earlier ++ arguments.filterMap Argument.name?)

/-- What arguments ask for. -/
def request (arguments : List Argument) : Request := requestBehind none [] arguments

/-! ## The arguments of words -/

theorem ofWord_flag {word : String} (h : word ∉ flagWords) : ofWord word = .name word := by
  simp only [flagWords, List.mem_cons, not_or] at h
  simp [ofWord, h]

/-- A word that is no end of a case above is no flag of a settings file. -/
theorem ne_options {word : String} {words : List String}
    (hlast : word = "--options" → words = [] → False)
    (hfile : ∀ file rest, word = "--options" → words = file :: rest → False) :
    word ≠ "--options" := by
  intro hword
  cases words with
  | nil => exact hlast hword rfl
  | cons file rest => exact hfile file rest hword rfl

theorem ofWords_cons {word : String} (h : word ≠ "--options") (words : List String) :
    ofWords (word :: words) = ofWord word :: ofWords words := by
  rw [ofWords]
  · rintro rfl
    exact absurd rfl h
  · rintro file rest rfl
    exact absurd rfl h

/-! ## The request of arguments -/

theorem requestOfNames_of_length {options : Option String} {given : List String}
    (hone : given.length ≠ 1) (htwo : given.length ≠ 2) : requestOfNames options given = .misused := by
  unfold requestOfNames
  split
  · exact absurd rfl hone
  · exact absurd rfl htwo
  · rfl

section

variable (options : Option String) (earlier : List String) (arguments : List Argument)

theorem requestBehind_verbose :
    requestBehind options earlier (.verbose :: arguments) = requestBehind options earlier arguments := by
  simp only [requestBehind, List.mem_cons, reduceCtorEq, false_or, List.filterMap_cons,
    Argument.file?, Argument.name?]

theorem requestBehind_options (file : String) :
    requestBehind options earlier (.options (some file) :: arguments) =
      requestBehind (some file) earlier arguments := by
  simp only [requestBehind, List.mem_cons, reduceCtorEq, false_or, Argument.options.injEq,
    List.filterMap_cons, Argument.file?, Argument.name?, List.getLast?_cons, Option.some_or]
  cases (arguments.filterMap Argument.file?).getLast? <;> rfl

theorem requestBehind_name (n : String) :
    requestBehind options earlier (.name n :: arguments) =
      requestBehind options (earlier ++ [n]) arguments := by
  simp only [requestBehind, List.mem_cons, reduceCtorEq, false_or, List.filterMap_cons,
    Argument.file?, Argument.name?, List.append_assoc, List.singleton_append]

end

theorem readArguments_eq_requestBehind (options : Option String) (earlier args : List String) :
    readArguments options earlier args = requestBehind options earlier.reverse (ofWords args) := by
  fun_induction readArguments options earlier args with
  | case1 | case2 => rfl
  | case3 options earlier hone htwo =>
    have hmisused : requestOfNames options earlier.reverse = .misused := by
      apply requestOfNames_of_length <;> rw [List.length_reverse]
      · intro h
        obtain ⟨level, rfl⟩ := List.length_eq_one_iff.1 h
        exact hone level rfl
      · intro h
        obtain ⟨output, level, rfl⟩ := List.length_eq_two.1 h
        exact htwo output level rfl
    rw [← List.append_nil earlier.reverse] at hmisused
    exact hmisused.symm
  | case4 options earlier args ih | case5 options earlier args ih =>
    rw [ofWords_cons (by decide), ih]
    exact (requestBehind_verbose _ _ _).symm
  | case6 options earlier args | case7 options earlier args =>
    rw [ofWords_cons (by decide)]
    exact (if_pos List.mem_cons_self).symm
  | case8 => rfl
  | case9 options earlier file args ih =>
    rw [ih]
    exact (requestBehind_options _ _ _ _).symm
  | case10 options earlier name args hv hverbose hh hhelp hlast hfile ih =>
    -- any other word is a name
    have hoptions := ne_options hlast hfile
    have hword : ofWord name = .name name := by
      apply ofWord_flag
      simp only [flagWords, List.mem_cons, List.not_mem_nil, or_false, not_or]
      exact ⟨hv, hverbose, hh, hhelp, hoptions⟩
    rw [ih, ofWords_cons hoptions, hword, requestBehind_name, List.reverse_cons]

/-- **What arguments ask for**, whatever their order. -/
theorem readArguments_eq (args : List String) :
    readArguments none [] args = request (ofWords args) :=
  readArguments_eq_requestBehind none [] args

theorem request_eq_compile {arguments : List Argument} {options : Option String} {level : String}
    {output : Option String} :
    request arguments = .compile options level output ↔
      .help ∉ arguments ∧ .options none ∉ arguments ∧
        arguments.filterMap Argument.name? = level :: output.toList ∧
        (arguments.filterMap Argument.file?).getLast? = options := by
  unfold request requestBehind
  rw [List.nil_append, Option.or_none]
  by_cases hhelp : Argument.help ∈ arguments
  · simp [hhelp]
  by_cases hfile : Argument.options none ∈ arguments
  · simp [hhelp, hfile]
  rw [if_neg hhelp, if_neg hfile]
  unfold requestOfNames
  constructor
  · intro h
    split at h <;> cases h
    · exact ⟨hhelp, hfile, by assumption, rfl⟩
    · exact ⟨hhelp, hfile, by assumption, rfl⟩
  · rintro ⟨-, -, hnames, rfl⟩
    rw [hnames]
    cases output <;> rfl

/-! ## More words -/

/-- A name at the end is one argument more, unless it is taken for a settings file. -/
theorem ofWords_append_name {word : String} (h : word ∉ flagWords) {args : List String}
    (hfiles : .options none ∉ ofWords args) : ofWords (args ++ [word]) = ofWords args ++ [.name word] := by
  fun_induction ofWords args with
  | case1 =>
    rw [List.nil_append, ofWords_cons (fun hw => h (by simp [flagWords, hw])), ofWord_flag h]
    rfl
  | case2 => exact absurd List.mem_cons_self hfiles
  | case3 file args ih =>
    have hrest := ih (fun hmem => hfiles (List.mem_cons_of_mem _ hmem))
    rw [List.cons_append, List.cons_append, ofWords, hrest, List.cons_append]
  | case4 first args hlast hfile ih =>
    have hrest := ih (fun hmem => hfiles (List.mem_cons_of_mem _ hmem))
    rw [List.cons_append, ofWords_cons (ne_options hlast hfile), hrest, List.cons_append]

/-- **A name behind the words of one level** is where its text goes. -/
theorem readArguments_append_name {args : List String} {options : Option String} {level word : String}
    (h : readArguments none [] args = .compile options level none) (hword : word ∉ flagWords) :
    readArguments none [] (args ++ [word]) = .compile options level (some word) := by
  rw [readArguments_eq, request_eq_compile] at h ⊢
  obtain ⟨hhelp, hfile, hnames, hoptions⟩ := h
  rw [ofWords_append_name hword hfile, List.filterMap_append, List.filterMap_append, hnames, hoptions.symm]
  simp [hhelp, hfile, Argument.name?, Argument.file?]

/-- A call for details between words, but not where a settings file is named. -/
theorem ofWords_insert_verbose {before : List String} (h : before.getLast? ≠ some "--options")
    (after : List String) :
    ∃ front back, ofWords (before ++ after) = front ++ back ∧
      ofWords (before ++ "-v" :: after) = front ++ .verbose :: back := by
  fun_induction ofWords before with
  | case1 => exact ⟨[], ofWords after, rfl, ofWords_cons (by decide) after⟩
  | case2 => exact absurd rfl h
  | case3 file words ih =>
    have hlast : words.getLast? ≠ some "--options" := by
      intro hwords
      exact h (by rw [List.getLast?_cons, List.getLast?_cons, hwords]; rfl)
    obtain ⟨front, back, hwithout, hwith⟩ := ih hlast
    refine ⟨.options (some file) :: front, back, ?_, ?_⟩
    · rw [List.cons_append, List.cons_append, ofWords, hwithout, List.cons_append]
    · rw [List.cons_append, List.cons_append, ofWords, hwith, List.cons_append]
  | case4 word words hend hfile ih =>
    have hlast : words.getLast? ≠ some "--options" := by
      intro hwords
      exact h (by rw [List.getLast?_cons, hwords]; rfl)
    obtain ⟨front, back, hwithout, hwith⟩ := ih hlast
    have hword := ne_options hend hfile
    refine ⟨ofWord word :: front, back, ?_, ?_⟩
    · rw [List.cons_append, ofWords_cons hword, hwithout, List.cons_append]
    · rw [List.cons_append, ofWords_cons hword, hwith, List.cons_append]

/-- **A call for details changes nothing** of what is asked for. -/
theorem readArguments_insert_verbose {before : List String}
    (h : before.getLast? ≠ some "--options") (after : List String) :
    readArguments none [] (before ++ "-v" :: after) = readArguments none [] (before ++ after) := by
  obtain ⟨front, back, hwithout, hwith⟩ := ofWords_insert_verbose h after
  rw [readArguments_eq, readArguments_eq, hwithout, hwith]
  simp only [request, requestBehind, List.mem_append, List.mem_cons, reduceCtorEq, false_or,
    List.filterMap_append, List.filterMap_cons, Argument.file?, Argument.name?]

end RhythmTiles.Command
