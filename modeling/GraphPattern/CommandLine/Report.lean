import GraphPattern.Json.Printer
import GraphPattern.Session

/-!
# Reports

Results are reported as lines for people or as JSON documents. Lines for people go to the output
when something has been achieved and to the diagnostics when it has not.
-/

namespace GraphPattern

/-- The document of a step of a plan. -/
def Plan.StepSummary.toJson (s : Plan.StepSummary) : Json :=
  .object [("strategy", .string s.rule), ("args", .string s.args), ("output", .string s.output)]

/-- The document of a plan. -/
def Plan.Summary.toJson (s : Plan.Summary) : Json :=
  .object [("query", .string s.query), ("outcome", .string s.outcome.text),
    ("states", .nat s.states), ("edges", .nat s.edges), ("shared_targets", .nat s.sharedTargets),
    ("steps", Json.list Plan.StepSummary.toJson s.steps)]

/-- The document of a run. -/
def ExecutionReport.toJson (r : ExecutionReport) : Json :=
  .object [("container", .string r.container), ("steps_executed", .nat r.stepsExecuted),
    ("steps_skipped", .nat r.stepsSkipped), ("objects", .nat r.objects), ("links", .nat r.links),
    ("subgraphs", .nat r.subgraphs), ("derived_links", .nat r.derivedLinks)]

namespace CommandLine

/-- What has been written. -/
structure Written where
  /-- The lines of the output. -/
  output : List String
  /-- The lines of the diagnostics. -/
  diagnostics : List String
deriving DecidableEq

namespace Written

/-- Nothing has been written. -/
def nothing : Written := ⟨[], []⟩

/-- Lines of the output. -/
def out (lines : List String) : Written := ⟨lines, []⟩

/-- Lines of the diagnostics. -/
def err (lines : List String) : Written := ⟨[], lines⟩

instance : Append Written where
  append a b := ⟨a.output ++ b.output, a.diagnostics ++ b.diagnostics⟩

/-- The text of some lines. -/
def text (lines : List String) : String := String.join (lines.map (· ++ "\n"))

end Written

/-- How a command ends. -/
inductive ExitStatus where
  /-- It has done what it was asked for. -/
  | success
  /-- Something went wrong. -/
  | failure
  /-- The query breaks rules, or the arguments cannot be understood. -/
  | invalid
  /-- The query has no plan. -/
  | noSolution
deriving DecidableEq

namespace ExitStatus

/-- The number of a status. -/
def code : ExitStatus → UInt32
  | success => 0
  | failure => 1
  | invalid => 2
  | noSolution => 3

end ExitStatus

/-- A time in nanoseconds. -/
structure Duration where
  /-- The nanoseconds. -/
  nanoseconds : Nat
deriving DecidableEq

namespace Duration

/-- The time between two readings of a clock. -/
def between (start stop : Nat) : Duration := ⟨stop - start⟩

/-- Digits with zeros in front, up to a width. -/
def padded (width n : Nat) : String :=
  let digits := Nat.toDigits 10 n
  String.ofList (List.replicate (width - digits.length) '0' ++ digits)

/-- The text of a time: hundredths of seconds from one second on, else milliseconds. -/
def text (d : Duration) : String :=
  if 1000000000 ≤ d.nanoseconds then
    let hundredths := Binary64.roundHalfEven d.nanoseconds 10000000
    s!"{hundredths / 100}." ++ padded 2 (hundredths % 100) ++ "s"
  else s!"{Binary64.roundHalfEven d.nanoseconds 1000000}ms"

end Duration

namespace Report

/-- A text after blanks, up to a width. -/
def rightAligned (width : Nat) (s : String) : String :=
  String.ofList (List.replicate (width - s.length) ' ') ++ s

/-- A heading. -/
def heading (title : String) : String := "▸ " ++ title

/-- A heading and the rows below it, their keys aligned on the right. -/
def sectionLines (title : String) (rows : List (String × String)) : List String :=
  let width := rows.foldl (fun w row => max w row.1.length) 0
  heading title :: rows.map fun (key, value) => "  " ++ rightAligned width key ++ ": " ++ value

/-- A step of a plan, numbered from one. -/
def stepLine (position : Nat) (s : Plan.StepSummary) : String :=
  "  " ++ rightAligned 3 s!"{position + 1}" ++ s!". {s.rule}:{s.args} -> {s.output}"

/-- The lines of a plan. -/
def planLines (s : Plan.Summary) : List String :=
  sectionLines "Search"
    [("query", s.query), ("outcome", s.outcome.text), ("states", toString s.states),
      ("edges", toString s.edges), ("shared targets", toString s.sharedTargets)] ++
    if s.steps.isEmpty then [] else heading "Steps" :: s.steps.mapIdx stepLine

/-- The lines of the imported data. -/
def dataLines (objects links : Nat) : List String :=
  sectionLines "Data" [("objects", toString objects), ("links", toString links)]

/-- The lines of a run. -/
def resultLines (r : ExecutionReport) : List String :=
  sectionLines "Result"
    [("container", r.container), ("subgraphs", toString r.subgraphs),
      ("objects", toString r.objects), ("links", toString r.links),
      ("steps executed", toString r.stepsExecuted), ("steps skipped", toString r.stepsSkipped),
      ("derived links", toString r.derivedLinks)]

/-- The line of a match with its members, objects before links. -/
def matchLine (c : StoredContainer) (subgraph : Int) : String :=
  let members :=
    StoredContainer.membersIn c.objects subgraph ++ StoredContainer.membersIn c.links subgraph
  s!"  subgraph {subgraph}: " ++ " ".intercalate (members.map fun (id, name) => s!"{name}={id}")

/-- The lines of all matches in a container. -/
def matchLines (c : StoredContainer) : List String := c.subgraphIds.map (matchLine c)

/-- A success. -/
def success (message : String) : Written := .out ["✔ " ++ message]

/-- A failure. -/
def failure (message : String) : Written := .err ["✘ " ++ message]

/-- A warning. -/
def warning (message : String) : Written := .err ["⚠ " ++ message]

/-- A failure and the problems behind it. -/
def problems (message : String) (entries : List String) : Written :=
  failure message ++ .err (entries.map ("  - " ++ ·))

/-- An error. -/
def error (message : String) : Written := .err ["error: " ++ message]

/-- A document on indented lines. -/
def document (j : Json) : Written := .out [Json.Printer.pretty "" j]

end Report

end CommandLine

end GraphPattern
