import GraphPattern.CommandLine.Arguments
import GraphPattern.CommandLine.Report
import GraphPattern.Settings.Reader
import GraphPattern.Store.Import

/-!
# The command line

A command validates, plans or runs the query in a file. What it needs from outside is asked for
through `Surroundings`, so that everything else is a function of the answers. Settings are read
before the command looks at its files.
-/

namespace GraphPattern.CommandLine

/-- Why a file cannot be read. -/
inductive FileFault where
  /-- There is no such file. -/
  | missing
  /-- The path leads through something that is not a directory. -/
  | notDirectory
  /-- The path or a part of it is too long. -/
  | nameTooLong
  /-- It is a directory. -/
  | directory
  /-- Anything else. -/
  | unreadable (reason : String)
deriving DecidableEq

namespace FileFault

/-- The text of a fault. -/
def message : FileFault → String
  | missing => "No such file or directory (os error 2)"
  | notDirectory => "Not a directory (os error 20)"
  | nameTooLong => "File name too long (os error 36)"
  | directory => "Is a directory (os error 21)"
  | unreadable reason => reason

/-- Whether nothing can be found under the path. -/
def isAbsence : FileFault → Bool
  | missing | notDirectory | nameTooLong => true
  | directory | unreadable _ => false

end FileFault

/-- What a command can find out. -/
structure Surroundings (m : Type → Type) where
  /-- The bytes of a file. -/
  read : String → m (Except FileFault (List UInt8))
  /-- The value of an environment variable. -/
  value? : String → m (Option String)
  /-- The reading of a clock that counts nanoseconds. -/
  now : m Nat

/-- What a command has cost. -/
structure Profile where
  /-- What the search counted. -/
  search : SearchCounters
  /-- The time for planning. -/
  planning : Duration
  /-- The number of steps that were replayed. -/
  stepsExecuted : Nat
  /-- The time for replaying them. -/
  running : Duration

namespace Profile

/-- Nothing was done. -/
def none : Profile := ⟨.zero, ⟨0⟩, 0, ⟨0⟩⟩

/-- The lines of a profile. -/
def lines (p : Profile) : List String :=
  Report.sectionLines "Profile"
    [("states created", toString p.search.statesCreated),
      ("dedup hits", toString p.search.dedupHits),
      ("applications", toString p.search.applications),
      ("plan ns", toString p.planning.nanoseconds),
      ("steps executed", toString p.stepsExecuted),
      ("step ns", toString p.running.nanoseconds)]

end Profile

/-- The end of a command that did not fail. -/
structure Completion where
  /-- The status. -/
  status : ExitStatus
  /-- What has been written. -/
  written : Written
  /-- What it has cost. -/
  profile : Profile

/-- A failure, and what was written about what it interrupted. -/
structure Interruption where
  /-- The error. -/
  error : Error
  /-- What has been written. -/
  written : Written

/-- The end of the program. -/
structure Outcome where
  /-- The status. -/
  status : ExitStatus
  /-- What has been written. -/
  written : Written

/-- The text of a file. -/
def decode (bytes : List UInt8) : Except FileFault String :=
  match String.fromUTF8? ⟨bytes.toArray⟩ with
  | some text => pure text
  | none => throw (.unreadable "stream did not contain valid UTF-8")

/-- A path within a directory. -/
def within (directory path : String) : String :=
  if directory.endsWith "/" then directory ++ path else directory ++ "/" ++ path

/-- The settings file that is used when none is named: in the directory for settings or, where that
is not given by an absolute path, in the home directory. -/
def standardFile? (settingsHome home : Option String) : Option String :=
  match settingsHome.filter (·.startsWith "/"), home.filter (· ≠ "") with
  | some directory, _ => some (within directory "qgraph/config.toml")
  | none, some directory => some (within directory ".config/qgraph/config.toml")
  | none, none => none

/-- The settings with the changes that a command asks for. -/
def changedSearch (s : Settings) (a : SearchArguments) : Settings :=
  { s with search := ⟨s.search.exhaustive || a.exhaustive, a.maxStates.or s.search.maxStates⟩ }

/-- The settings of a run. -/
def changedRun (s : Settings) (a : RunArguments) : Settings :=
  { s with execution := { s.execution with
      replaceExisting := s.execution.replaceExisting || a.replace } }

section Commands

variable {m : Type → Type} [Monad m]

/-- The settings in a file. A file that is not there says nothing. -/
def settingsIn (world : Surroundings m) (path : String) : ExceptT Interruption m Settings := do
  let fail := fun (e : ConfigError) => throw ⟨.config e, .nothing⟩
  match (← world.read path).bind decode with
  | .error fault =>
    if fault.isAbsence then return .standard else fail (.unreadable path fault.message)
  | .ok text =>
    match Settings.Reader.ofText? text with
    | some settings => return settings
    | none => fail (.malformed path)

/-- The settings in the named file or in the standard one. -/
def loadSettings (world : Surroundings m) (named : Option String) :
    ExceptT Interruption m Settings := do
  let settingsHome ← world.value? "XDG_CONFIG_HOME"
  let home ← world.value? "HOME"
  match named.or (standardFile? settingsHome home) with
  | some path => settingsIn world path
  | none => return .standard

/-- The query in a file. -/
def loadQuery (world : Surroundings m) (path : String) : ExceptT Interruption m Query := do
  let query : Except Error Query :=
    match (← world.read path).bind decode with
    | .ok text => Session.readQuery text
    | .error fault => refuseArgument (.unreadableFile path fault.message)
  match query with
  | .ok q => return q
  | .error e => throw ⟨e, .nothing⟩

/-- The rows of a file that a store takes in. -/
def importFile (world : Surroundings m) (path : String)
    (keep : List UInt8 → EStateM ImportError Store Nat) (s : Store) :
    ExceptT Interruption m (Nat × Store) := do
  match ← world.read path with
  | .error fault => throw ⟨.dataImport (.unreadable fault.message), .nothing⟩
  | .ok bytes =>
    match (keep bytes).run s with
    | .ok rows s => return (rows, s)
    | .error e _ => throw ⟨.dataImport e, .nothing⟩

/-- The store of the data for a run, with the numbers of objects and links that were read. -/
def loadData (world : Surroundings m) (data : RunArguments) :
    ExceptT Interruption m (Nat × Nat × Store) := do
  let (objects, s) ← importFile world data.objects (Store.importObjects data.objects "id") .empty
  match data.links with
  | none => return (objects, 0, s)
  | some path =>
    let (links, s) ← importFile world path (Store.importLinks path .standard) s
    return (objects, links, s)

/-- The result of some work that was under way since a reading of the clock. A failure is said to
have interrupted it. -/
def finish {α : Type} (world : Surroundings m) (label : String) (start : Nat)
    (result : Except Error α) : ExceptT Interruption m (α × Duration) := do
  let stop ← world.now
  let time := Duration.between start stop
  match result with
  | .ok a => return (a, time)
  | .error e => throw ⟨e, Report.warning s!"{label} interrupted after {time.text}"⟩

/-- The report on a query that breaks rules. -/
def reportInvalid (format : OutputFormat) (q : Query) (violations : List Violation) : Completion :=
  let messages := violations.map Violation.message
  let written :=
    match format with
    | .json =>
      Report.document (.object [("status", .string "invalid"),
        ("violations", Json.strings messages)])
    | .text => Report.problems s!"query '{q.name}' is invalid" messages
  ⟨.invalid, written, .none⟩

/-- Validate a query. -/
def validate (world : Surroundings m) (format : OutputFormat) (path : String) :
    ExceptT Interruption m Completion := do
  let q ← loadQuery world path
  let messages := q.violations.map Violation.message
  let written :=
    match format with
    | .json =>
      Report.document (.object [("query", .string q.name), ("valid", .bool q.isValid),
        ("violations", Json.strings messages)])
    | .text =>
      if q.isValid then Report.success s!"query '{q.name}' is valid"
      else Report.problems s!"query '{q.name}' has {messages.length} problem(s)" messages
  return ⟨if q.isValid then .success else .invalid, written, .none⟩

/-- The report on a plan. -/
def reportPlan (format : OutputFormat) (q : Query) (time : Duration) :
    CompileOutcome → Completion
  | .invalid violations => reportInvalid format q violations
  | .compiled plan =>
    let written :=
      match format with
      | .json =>
        Report.document (.object [("status", .string "compiled"), ("plan", plan.summary.toJson)])
      | .text =>
        .out (Report.planLines plan.summary) ++ Report.success s!"planned in {time.text}"
    ⟨.success, written, ⟨plan.counters, time, 0, ⟨0⟩⟩⟩
  | .noSolution plan =>
    let written :=
      match format with
      | .json =>
        Report.document (.object [("status", .string "no_solution"),
          ("message", .string Session.noSolutionMessage), ("plan", plan.summary.toJson)])
      | .text =>
        .out (Report.planLines plan.summary) ++ Report.failure Session.noSolutionMessage
    ⟨.noSolution, written, ⟨plan.counters, time, 0, ⟨0⟩⟩⟩

/-- Plan a query. -/
def plan (world : Surroundings m) (format : OutputFormat) (settings : Settings) (path : String) :
    ExceptT Interruption m Completion := do
  let q ← loadQuery world path
  let start ← world.now
  let (outcome, time) ←
    finish world s!"planning '{q.name}'" start (Session.compile Rule.builtIn settings.search q)
  return reportPlan format q time outcome

/-- The matches that are shown after a run. -/
def shownMatches (data : RunArguments) (s : Store) : List String :=
  if data.showMembers then (s.containers.find? data.destination).elim [] Report.matchLines else []

/-- The report on a run that has stored its matches, given the numbers of objects and links that
were read. The times are those for planning and for planning and running. -/
def reportRun (format : OutputFormat) (data : RunArguments) (objects links : Nat)
    (planning time : Duration) (plan : Plan) (report : ExecutionReport) (s : Store) : Completion :=
  let written :=
    match format with
    | .json =>
      Report.document (.object [("status", .string "completed"), ("plan", plan.summary.toJson),
        ("report", report.toJson)])
    | .text =>
      .out (Report.dataLines objects links ++ Report.planLines plan.summary ++
        Report.resultLines report ++ shownMatches data s) ++
        Report.success
          s!"stored {report.subgraphs} subgraph(s) in '{report.container}' in {time.text}"
  let running := Duration.between planning.nanoseconds time.nanoseconds
  ⟨.success, written, ⟨plan.counters, planning, report.stepsExecuted, running⟩⟩

/-- The report on a query that has no plan to run. -/
def reportUnplanned (format : OutputFormat) (plan : Plan) (time : Duration) : Completion :=
  let written :=
    match format with
    | .json =>
      Report.document (.object [("status", .string "no_solution"), ("plan", plan.summary.toJson)])
    | .text => .out (Report.planLines plan.summary) ++ Report.failure Session.noSolutionMessage
  ⟨.noSolution, written, ⟨plan.counters, time, 0, ⟨0⟩⟩⟩

/-- Run a plan on a store. -/
def runOn (config : ExecutionConfig) (plan : Plan) (destination : String) (s : Store) :
    Except Error (ExecutionReport × Store) :=
  match (Execution.run config plan destination).run s with
  | .ok report s => .ok (report, s)
  | .error e _ => .error e

/-- Run a query. -/
def run (world : Surroundings m) (format : OutputFormat) (settings : Settings) (path : String)
    (data : RunArguments) : ExceptT Interruption m Completion := do
  let q ← loadQuery world path
  let (objects, links, s) ← loadData world data
  let label := s!"running '{q.name}'"
  let start ← world.now
  let (outcome, planning) ←
    finish world label start (Session.compile Rule.builtIn settings.search q)
  match outcome with
  | .invalid violations => return reportInvalid format q violations
  | .noSolution plan => return reportUnplanned format plan planning
  | .compiled plan =>
    let ((report, s), time) ←
      finish world label start (runOn settings.execution plan data.destination s)
    return reportRun format data objects links planning time plan report s

/-- Carry a command out. -/
def invoke (world : Surroundings m) (i : Invocation) : ExceptT Interruption m Completion := do
  let settings ← loadSettings world i.config
  match i.command with
  | .validate query => validate world i.format query
  | .plan query search => plan world i.format (changedSearch settings search) query
  | .run query search data =>
    run world i.format (changedRun (changedSearch settings search) data) query data

/-- The version of the program. -/
def versionLine : String := "qgraph 0.4.0"

/-- How the program is used. -/
def helpLines : List String :=
  ["Usage: qgraph [OPTIONS] <COMMAND>", "",
    "Commands:",
    "  validate <QUERY>  Check a query description for structural problems",
    "  plan <QUERY> [--exhaustive] [--max-states <N>]",
    "                    Search for a plan and print the chosen steps",
    "  run <QUERY> --objects <FILE> [--links <FILE>] --into <NAME> [--replace] [--show]",
    "                    Plan a query and run it against CSV data", "",
    "Options:",
    "  --format <FORMAT>  text or json",
    "  --config <FILE>    Settings file",
    "  --theme <THEME>    auto, light, dark or plain",
    "  -h, --help         Print help",
    "  -V, --version      Print version"]

/-- What is written when arguments cannot be understood. -/
def reportMisuse : UsageError → Written
  | .noArguments => .err helpLines
  | misuse => Report.error misuse.message

/-- The end of a command; lines for people are followed by the profile if it is wanted. -/
def conclude (format : OutputFormat) (profiled : Bool) : Except Interruption Completion → Outcome
  | .ok c =>
    let profile := if profiled && format = .text then c.profile.lines else []
    ⟨c.status, c.written ++ .out profile⟩
  | .error i => ⟨.failure, i.written ++ Report.error i.error.message⟩

/-- Do what the arguments ask for. -/
def respond (world : Surroundings m) (arguments : List String) : m Outcome := do
  match understand (← world.value? "QGRAPH_CONFIG") arguments with
  | .error misuse => return ⟨.invalid, reportMisuse misuse⟩
  | .ok .version => return ⟨.success, .out [versionLine]⟩
  | .ok .help => return ⟨.success, .out helpLines⟩
  | .ok (.invoke i) =>
    let profiled := (← world.value? "QGRAPH_PROFILE").isSome
    return conclude i.format profiled (← (invoke world i).run)

end Commands

end GraphPattern.CommandLine
