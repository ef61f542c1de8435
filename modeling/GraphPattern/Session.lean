import GraphPattern.Description.Build
import GraphPattern.Description.Reader
import GraphPattern.Rule.BuiltIn
import GraphPattern.Settings
import GraphPattern.Validation

/-!
# Sessions

A session takes a query from its description to the stored matches: it reads and builds the query,
validates it, plans it and runs the plan.
-/

namespace GraphPattern

/-- The outcome of compiling a query. -/
inductive CompileOutcome where
  /-- The query has a plan. -/
  | compiled (plan : Plan)
  /-- The query breaks rules. -/
  | invalid (violations : List Violation)
  /-- The query keeps all rules but has no plan. -/
  | noSolution (plan : Plan)

namespace CompileOutcome

/-- The plan of a compiled query. -/
def plan? : CompileOutcome → Option Plan
  | compiled plan => some plan
  | _ => none

/-- Whether the query has a plan. -/
def isCompiled : CompileOutcome → Bool
  | compiled _ => true
  | _ => false

end CompileOutcome

/-- The outcome of running a query. -/
inductive RunOutcome where
  /-- The matches are stored. -/
  | completed (plan : Plan) (report : ExecutionReport)
  /-- The query breaks rules. -/
  | invalid (violations : List Violation)
  /-- The query keeps all rules but has no plan. -/
  | noSolution (plan : Plan)

namespace Session

/-- What is said when a query has no plan. -/
def noSolutionMessage : String := "no solution found with current rewrite strategies"

/-- Read and build a query. -/
def readQuery (text : String) : Except Error Query :=
  match Description.Reader.ofText? text with
  | some description => description.build
  | none => refuseArgument .malformedDescription

/-- Validate and plan a query. -/
def compile (rules : List Rule) (config : SearchConfig) (q : Query) :
    Except Error CompileOutcome := do
  match q.violations with
  | [] =>
    let plan ← Plan.ofQuery rules config q
    return if plan.isSolved then .compiled plan else .noSolution plan
  | violations => return .invalid violations

/-- Validate, plan and run a query. -/
def run (rules : List Rule) (settings : Settings) (q : Query) (destination : String) :
    EStateM Error Store RunOutcome := do
  match ← compile rules settings.search q with
  | .compiled plan => return .completed plan (← Execution.run settings.execution plan destination)
  | .invalid violations => return .invalid violations
  | .noSolution plan => return .noSolution plan

end Session

end GraphPattern
