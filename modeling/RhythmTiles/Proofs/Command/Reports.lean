import RhythmTiles.Folder
import RhythmTiles.Proofs.Command.Arguments
import RhythmTiles.Proofs.Compiled.Faults

/-!
# What the command reports

Five things can keep the command from a compiled level (`Problem`). Each is said of the words and the
files alone, so that several can be there at once; the first of them is reported (`run_eq_fail`), and
without any the level is delivered (`exists_deliver`). A report comes before anything is printed or
written, and what is delivered is the same text wherever it goes. Main theorem: `run_reports_first`.
-/

namespace RhythmTiles.Command

open Argument (ofWords)

/-- What keeps the command from a compiled level. -/
inductive Problem where
  | usage
  | unreadableSettings (path : String) (fault : FileFault)
  | badSettings (path : String)
  | unreadableLevel (path : String) (fault : FileFault)
  | badLevel (fault : LevelFault)

namespace Problem

/-- The place of a problem in the order of the reports. -/
def rank : Problem → Nat
  | usage => 0
  | unreadableSettings _ _ => 1
  | badSettings _ => 2
  | unreadableLevel _ _ => 3
  | badLevel _ => 4

def line : Problem → String
  | usage => Command.usage
  | unreadableSettings path fault | unreadableLevel path fault =>
    s!"Error reading file '{path}': " ++ fault.message
  | badSettings path => s!"Error in '{path}': Invalid level: invalid options:"
  | badLevel fault => "Compilation error: " ++ fault.message

end Problem

def settingsFile? (args : List String) : Option String :=
  ((ofWords args).filterMap Argument.file?).getLast?

/-- The problems of words and files. The level is the first name. -/
inductive Occurs (read : String → Except FileFault String) (args : List String) : Problem → Prop
  | usage (h : .options none ∈ ofWords args ∨ (names args).length ≠ 1 ∧ (names args).length ≠ 2) :
      Occurs read args .usage
  | unreadableSettings {path : String} {fault : FileFault} (hpath : settingsFile? args = some path)
      (h : read path = .error fault) : Occurs read args (.unreadableSettings path fault)
  | badSettings {path text : String} (hpath : settingsFile? args = some path)
      (htext : read path = .ok text) (h : Options.ofText? text = none) :
      Occurs read args (.badSettings path)
  | unreadableLevel {path : String} {fault : FileFault} (hpath : (names args).head? = some path)
      (h : read path = .error fault) : Occurs read args (.unreadableLevel path fault)
  | badLevel {path text : String} {fault : LevelFault} (hpath : (names args).head? = some path)
      (htext : read path = .ok text) (h : Level.ofText text = .error fault) :
      Occurs read args (.badLevel fault)

variable {read : String → Except FileFault String} {args : List String}

/-! ## The request -/

theorem readArguments_of_help (h : .help ∈ ofWords args) : readArguments none [] args = .help := by
  rw [readArguments_eq]
  exact if_pos h

theorem readArguments_of_usage (hhelp : .help ∉ ofWords args) (h : Occurs read args .usage) :
    readArguments none [] args = .misused := by
  rw [readArguments_eq, request, requestBehind, if_neg hhelp]
  cases h with
  | usage h =>
    rcases h with hfile | ⟨hone, htwo⟩
    · exact if_pos hfile
    · split_ifs
      · rfl
      · exact requestOfNames_of_length hone htwo

/-- Words that are used well ask for the compilation of the first name. -/
theorem readArguments_of_not_usage (hhelp : .help ∉ ofWords args) (h : ¬Occurs read args .usage) :
    ∃ level output, readArguments none [] args = .compile (settingsFile? args) level output ∧
      names args = level :: output.toList := by
  have hused : ¬(.options none ∈ ofWords args ∨ (names args).length ≠ 1 ∧ (names args).length ≠ 2) :=
    fun hmisused => h (.usage hmisused)
  obtain ⟨hfile, hcount⟩ := not_or.1 hused
  have hnames : ∃ level : String, ∃ output : Option String, names args = level :: output.toList := by
    by_cases hone : (names args).length = 1
    · obtain ⟨level, hlevel⟩ := List.length_eq_one_iff.1 hone
      exact ⟨level, none, hlevel⟩
    · have htwo : (names args).length = 2 := by tauto
      obtain ⟨level, output, hboth⟩ := List.length_eq_two.1 htwo
      exact ⟨level, some output, hboth⟩
  obtain ⟨level, output, hnames⟩ := hnames
  refine ⟨level, output, ?_, hnames⟩
  rw [readArguments_eq, request_eq_compile]
  exact ⟨hhelp, hfile, hnames, rfl⟩

/-! ## The answer -/

theorem readFile_of_error {path : String} {fault : FileFault} (h : read path = .error fault) :
    readFile read path = .error (fail (s!"Error reading file '{path}': " ++ fault.message)) := by
  rw [readFile, h]
  rfl

theorem readFile_of_ok {path text : String} (h : read path = .ok text) :
    readFile read path = .ok text := by
  rw [readFile, h]
  rfl

/-- The steps of a compilation, up to what is delivered. -/
def compilation (read : String → Except FileFault String) (settings : Option String) (level : String)
    (output : Option String) : Except Outcome Outcome :=
  readOptions read settings >>= fun options =>
    compileFile read options level >>= fun compiled => pure (deliver compiled output)

theorem answer_compile {settings output : Option String} {level : String} {outcome : Outcome}
    (h : compilation read settings level output = .ok outcome ∨
      compilation read settings level output = .error outcome) :
    answer read (.compile settings level output) = outcome := by
  unfold compilation at h
  unfold answer
  dsimp only
  rcases h with h | h <;> rw [h]

/-! ## The steps -/

/-- Settings with a problem end the command with its line. -/
theorem readOptions_of_occurs {problem : Problem} (h : Occurs read args problem)
    (hrank : problem.rank = 1 ∨ problem.rank = 2) :
    readOptions read (settingsFile? args) = .error (fail problem.line) := by
  cases h with
  | unreadableSettings hpath h =>
    rw [hpath]
    exact Outcome.bind_eq_error.2 (Or.inl (readFile_of_error h))
  | badSettings hpath htext h =>
    rw [hpath]
    refine Outcome.bind_eq_error.2 (Or.inr ⟨_, readFile_of_ok htext, ?_⟩)
    rw [h]
    rfl
  | usage | unreadableLevel | badLevel => simp [Problem.rank] at hrank

/-- A level with a problem ends the command with its line, whatever the options. -/
theorem compileFile_of_occurs {problem : Problem} (h : Occurs read args problem)
    (hrank : 3 ≤ problem.rank) {level : String} (hlevel : (names args).head? = some level)
    (options : Options) : compileFile read options level = .error (fail problem.line) := by
  cases h with
  | unreadableLevel hpath h =>
    obtain rfl := Option.some.inj (hlevel.symm.trans hpath)
    exact Outcome.bind_eq_error.2 (Or.inl (readFile_of_error h))
  | badLevel hpath htext h =>
    obtain rfl := Option.some.inj (hlevel.symm.trans hpath)
    refine Outcome.bind_eq_error.2 (Or.inr ⟨_, readFile_of_ok htext, ?_⟩)
    rw [Compiled.ofText_eq_error.2 h]
    rfl
  | usage | unreadableSettings | badSettings => simp [Problem.rank] at hrank

/-- Settings without a problem are read. -/
theorem exists_options (h : ∀ problem, Occurs read args problem → 3 ≤ problem.rank) :
    ∃ options, readOptions read (settingsFile? args) = .ok options := by
  cases hpath : settingsFile? args with
  | none => exact ⟨Options.default, rfl⟩
  | some path =>
    cases htext : read path with
    | error fault => exact absurd (h _ (.unreadableSettings hpath htext)) (by simp [Problem.rank])
    | ok text =>
      cases hoptions : Options.ofText? text with
      | none => exact absurd (h _ (.badSettings hpath htext hoptions)) (by simp [Problem.rank])
      | some options =>
        refine ⟨options, Outcome.bind_eq_ok.2 ⟨text, readFile_of_ok htext, ?_⟩⟩
        rw [hoptions]
        rfl

/-- A level without a problem is compiled, whatever the options. -/
theorem exists_compiled (h : ∀ problem, ¬Occurs read args problem) {level : String}
    (hlevel : (names args).head? = some level) (options : Options) :
    ∃ compiled, compileFile read options level = .ok compiled := by
  cases htext : read level with
  | error fault => exact absurd (.unreadableLevel hlevel htext) (h _)
  | ok text =>
    cases hcompiled : Compiled.ofText options text with
    | error fault =>
      exact absurd (.badLevel hlevel htext (Compiled.ofText_eq_error.1 hcompiled)) (h _)
    | ok compiled =>
      refine ⟨compiled, Outcome.bind_eq_ok.2 ⟨text, readFile_of_ok htext, ?_⟩⟩
      rw [hcompiled]
      rfl

/-! ## Runs -/

theorem run_of_help (h : .help ∈ ofWords args) : run read args = ⟨0, usage ++ "\n", "", none⟩ := by
  rw [run, readArguments_of_help h]
  rfl

/-- **The first problem is reported**, and nothing else is done. -/
theorem run_eq_fail (hhelp : .help ∉ ofWords args) {problem : Problem} (h : Occurs read args problem)
    (hfirst : ∀ other, Occurs read args other → problem.rank ≤ other.rank) :
    run read args = fail problem.line := by
  by_cases husage : Occurs read args .usage
  · have hrank := hfirst _ husage
    have hproblem : problem = .usage := by cases problem <;> simp_all [Problem.rank]
    rw [run, readArguments_of_usage hhelp husage, hproblem]
    rfl
  · obtain ⟨level, output, hrequest, hnames⟩ := readArguments_of_not_usage hhelp husage
    rw [run, hrequest]
    apply answer_compile
    right
    rcases Nat.lt_or_ge problem.rank 3 with hsettings | hlevel
    · have hrank : problem.rank = 1 ∨ problem.rank = 2 := by
        have hne : problem ≠ .usage := by
          rintro rfl
          exact husage h
        cases problem <;> simp_all [Problem.rank]
      exact Outcome.bind_eq_error.2 (Or.inl (readOptions_of_occurs h hrank))
    · obtain ⟨options, hoptions⟩ := exists_options fun other hother => hlevel.trans (hfirst other hother)
      refine Outcome.bind_eq_error.2 (Or.inr ⟨options, hoptions, Outcome.bind_eq_error.2 (Or.inl ?_)⟩)
      exact compileFile_of_occurs h hlevel (by rw [hnames]; rfl) options

/-- **Without a problem the level is delivered**, where the names say. -/
theorem exists_deliver (hhelp : .help ∉ ofWords args) (h : ∀ problem, ¬Occurs read args problem) :
    ∃ level output compiled, readArguments none [] args = .compile (settingsFile? args) level output ∧
      names args = level :: output.toList ∧
      ∀ target, answer read (.compile (settingsFile? args) level target) = deliver compiled target := by
  obtain ⟨level, output, hrequest, hnames⟩ := readArguments_of_not_usage hhelp (h _)
  obtain ⟨options, hoptions⟩ := exists_options fun problem hproblem => absurd hproblem (h problem)
  have hlevel : (names args).head? = some level := by rw [hnames]; rfl
  obtain ⟨compiled, hcompiled⟩ := exists_compiled h hlevel options
  refine ⟨level, output, compiled, hrequest, hnames, fun target => answer_compile (Or.inl ?_)⟩
  exact Outcome.bind_eq_ok.2 ⟨options, hoptions, Outcome.bind_eq_ok.2 ⟨compiled, hcompiled, rfl⟩⟩

/-- Among problems there is a first one. -/
theorem exists_first (h : ∃ problem, Occurs read args problem) :
    ∃ problem, Occurs read args problem ∧
      ∀ other, Occurs read args other → problem.rank ≤ other.rank := by
  obtain ⟨problem, hproblem, hmin⟩ := (measure Problem.rank).wf.has_min {p | Occurs read args p} h
  exact ⟨problem, hproblem, fun other hother => not_lt.1 (hmin other hother)⟩

theorem run_exit_eq_zero :
    (run read args).exit = 0 ↔ .help ∈ ofWords args ∨ ∀ problem, ¬Occurs read args problem := by
  by_cases hhelp : .help ∈ ofWords args
  · rw [run_of_help hhelp]
    exact ⟨fun _ => Or.inl hhelp, fun _ => rfl⟩
  constructor
  · intro hexit
    right
    intro problem hproblem
    obtain ⟨first, hfirst, hmin⟩ := exists_first ⟨problem, hproblem⟩
    rw [run_eq_fail hhelp hfirst hmin] at hexit
    cases hexit
  · rintro (h | h)
    · exact absurd h hhelp
    · obtain ⟨level, output, compiled, hrequest, -, hanswer⟩ := exists_deliver hhelp h
      rw [run, hrequest, hanswer]
      cases output <;> rfl

/-- A run that fails has reported a problem, and that is all. -/
theorem exists_fail (h : (run read args).exit ≠ 0) :
    ∃ problem : Problem, run read args = fail problem.line := by
  obtain ⟨hhelp, hproblems⟩ := not_or.1 (mt run_exit_eq_zero.2 h)
  obtain ⟨problem, hproblem⟩ := not_forall_not.1 hproblems
  obtain ⟨first, hfirst, hmin⟩ := exists_first ⟨problem, hproblem⟩
  exact ⟨first, run_eq_fail hhelp hfirst hmin⟩

/-- In a folder, too, a run that fails changes no file and prints nothing on the standard output, even
where it is the write that fails. -/
theorem folder_of_failure {folder : Folder} (h : (folder.run args).exit ≠ 0) :
    (folder.run args).folder = folder ∧ (folder.run args).stdout = "" := by
  by_cases hexit : (run folder.read args).exit = 0
  · -- the run itself has not failed, so the write has
    unfold Folder.run Folder.carryOut at h ⊢
    cases hwrite : (run folder.read args).write with
    | none =>
      simp only [hwrite] at h
      exact absurd hexit h
    | some write =>
      simp only [hwrite] at h ⊢
      cases hname : folder.resolve write.path with
      | ok name =>
        simp only [hname] at h
        exact absurd hexit h
      | error fault => exact ⟨rfl, rfl⟩
  · obtain ⟨problem, hfail⟩ := exists_fail hexit
    unfold Folder.run
    rw [hfail]
    exact ⟨rfl, rfl⟩

/-- A text that is to be written is in its file afterwards. -/
theorem folder_run_of_write {folder : Folder} {path text report name : String}
    (h : run folder.read args = ⟨0, "", "", some ⟨path, text, report⟩⟩)
    (hname : folder.resolve path = .ok name) :
    folder.run args = ⟨0, "", report, folder.put name text⟩ := by
  unfold Folder.run Folder.carryOut
  simp only [h, hname]
  rfl

/-- **What a run does**, whatever the words and the files. When it fails, nothing is written or printed
on the standard output. What it prints of a level goes to a file when one more name says so. A call for
details changes nothing. Of the problems the first is reported. -/
theorem run_reports_first (read : String → Except FileFault String) (args : List String) :
    ((run read args).exit ≠ 0 → (run read args).stdout = "" ∧ (run read args).write = none) ∧
    (∀ folder : Folder, (folder.run args).exit ≠ 0 →
      (folder.run args).folder = folder ∧ (folder.run args).stdout = "") ∧
    (∀ output, (names args).length = 1 → (run read args).exit = 0 →
      (run read args).stdout ≠ usage ++ "\n" → output ∉ flagWords →
      ∃ text report, run read args = ⟨0, text ++ "\n", "", none⟩ ∧
        run read (args ++ [output]) = ⟨0, "", "", some ⟨output, text, report⟩⟩ ∧
        ∀ folder name, read = Folder.read folder → folder.resolve output = .ok name →
          folder.run (args ++ [output]) = ⟨0, "", report, folder.put name text⟩) ∧
    (∀ before after, args = before ++ after → before.getLast? ≠ some "--options" →
      run read (before ++ "-v" :: after) = run read args) ∧
    (.help ∉ ofWords args → ∀ problem, Occurs read args problem →
      (∀ other, Occurs read args other → problem.rank ≤ other.rank) →
      run read args = fail problem.line) ∧
    ((run read args).exit = 0 ↔ .help ∈ ofWords args ∨ ∀ problem, ¬Occurs read args problem) := by
  refine ⟨?_, fun folder => folder_of_failure, ?_, ?_, fun hhelp problem => run_eq_fail hhelp,
    run_exit_eq_zero⟩
  · intro hexit
    obtain ⟨problem, hfail⟩ := exists_fail hexit
    rw [hfail]
    exact ⟨rfl, rfl⟩
  · intro output hone hexit hstdout hword
    have hhelp : .help ∉ ofWords args := by
      intro hhelp
      rw [run_of_help hhelp] at hstdout
      exact hstdout rfl
    have hproblems := (run_exit_eq_zero.1 hexit).resolve_left hhelp
    obtain ⟨level, target, compiled, hrequest, hnames, hanswer⟩ := exists_deliver hhelp hproblems
    -- one name is the level, so there is none for the text
    obtain rfl : target = none := by
      cases target with
      | none => rfl
      | some target => simp [hnames] at hone
    obtain ⟨report, hwritten⟩ : ∃ report, run read (args ++ [output]) =
        ⟨0, "", "", some ⟨output, compiled.toJson.pretty, report⟩⟩ := by
      rw [run, readArguments_append_name hrequest hword, hanswer]
      exact ⟨_, rfl⟩
    refine ⟨compiled.toJson.pretty, report, ?_, hwritten, ?_⟩
    · rw [run, hrequest, hanswer]
      rfl
    · rintro folder name rfl hname
      exact folder_run_of_write hwritten hname
  · rintro before after rfl hlast
    rw [run, run, readArguments_insert_verbose hlast]

/-- The settings file of this run is called `-v`. With more details and with another name the same text
goes to a file; and with three names and no settings file to read, the names are what is reported. -/
theorem run_reports_first_settings_named_as_flag :
    let read : String → Except FileFault String := fun path =>
      if path = "-v" then .ok "tracker:\n  retention: 8\n"
      else if path = "a.json" then
        .ok "\x7b\"baseBpm\": 60, \"musics\": [\x7b\"id\": 1, \"baseBeats\": 0.5, \"scores\": [\"(c)[K]\"]\x7d]\x7d"
      else .error .notFound
    (∃ text report, run read ["--options", "-v", "a.json"] = ⟨0, text ++ "\n", "", none⟩ ∧
      run read ["--options", "-v", "a.json", "b.json"] = ⟨0, "", "", some ⟨"b.json", text, report⟩⟩ ∧
      run read ["--options", "-v", "-v", "a.json"] = ⟨0, text ++ "\n", "", none⟩) ∧
    run read ["--options", "c.yaml", "a.json", "b.json", "d.json"] = fail usage ∧
    Occurs read ["--options", "c.yaml", "a.json", "b.json", "d.json"]
      (.unreadableSettings "c.yaml" .notFound) := by
  intro read
  have hexit : (run read ["--options", "-v", "a.json"]).exit = 0 := by decide +kernel
  have hstdout : (run read ["--options", "-v", "a.json"]).stdout ≠ usage ++ "\n" := by decide +kernel
  obtain ⟨-, -, htext, hdetails, -, -⟩ := run_reports_first read ["--options", "-v", "a.json"]
  obtain ⟨text, report, hprinted, hwritten, -⟩ :=
    htext "b.json" (by decide) hexit hstdout (by decide)
  have hmore := hdetails ["--options", "-v"] ["a.json"] rfl (by decide)
  obtain ⟨-, -, -, -, hreport, -⟩ :=
    run_reports_first read ["--options", "c.yaml", "a.json", "b.json", "d.json"]
  have hmisused : Occurs read ["--options", "c.yaml", "a.json", "b.json", "d.json"] .usage :=
    .usage (Or.inr (by decide))
  refine ⟨⟨text, report, hprinted, hwritten, hmore.trans hprinted⟩, ?_, ?_⟩
  · exact hreport (by decide) .usage hmisused fun other _ => Nat.zero_le _
  · exact .unreadableSettings (by decide) rfl

end RhythmTiles.Command
