import GraphPattern.Search
import GraphPattern.Search.Path

/-!
# Plans

A plan is a shortest sequence of reductions that a search has found, together with the search. A
search that gave up has no plan.
-/

namespace GraphPattern

/-- The outcome of planning a query. -/
structure Plan where
  /-- The states and steps of the search. -/
  graph : SearchGraph
  /-- The steps of the plan, if there is one. -/
  path : Option (List StepId)
  /-- How the search ended. -/
  outcome : SearchOutcome
  /-- What the search counted. -/
  counters : SearchCounters

/-- A step of a plan. -/
structure PlanStep where
  /-- The query before the step. -/
  before : Query
  /-- The reduction. -/
  step : SearchStep

namespace PlanStep

/-- The reduction as it is replayed. -/
def replay (s : PlanStep) : Replay := ⟨s.before, s.step.application, s.step.result⟩

end PlanStep

namespace Plan

/-- The plan that a search ends with. -/
def ofSearch (outcome : SearchOutcome) (p : SearchProgress) : Plan where
  graph := p.graph
  path :=
    match outcome with
    | .capped => none
    | .solved | .exhausted => p.graph.shortestPath? .start
  outcome := outcome
  counters := p.counters

/-- Plan a query with given rules, where the search goes down to a given depth. -/
def toDepth (rules : List Rule) (config : SearchConfig) (depth : Nat) (q : Query) :
    Except Error Plan := do
  let (outcome, progress) ← Search.runTo rules config depth q
  return ofSearch outcome progress

/-- Plan a query with given rules. -/
def ofQuery (rules : List Rule) (config : SearchConfig) (q : Query) : Except Error Plan :=
  toDepth rules config (Search.depthLimit config q) q

/-- The name of the query that was planned. -/
def queryName (p : Plan) : String := ((p.graph.state? .start).map fun s => s.query.name).getD ""

/-- Whether there is a plan. -/
def isSolved (p : Plan) : Bool := p.path.isSome

/-- The steps of the plan. -/
def steps (p : Plan) : List PlanStep :=
  (p.path.getD []).filterMap fun e => do
    let step ← p.graph.step? e
    let state ← p.graph.state? step.source
    return ⟨state.query, step⟩

/-- The query that the plan leads to. -/
def finalQuery? (p : Plan) : Option Query := do
  let path ← p.path
  let last ←
    match path.getLast? with
    | some e => p.graph.target? e
    | none => some .start
  return (← p.graph.state? last).query

/-- A step of a plan as text. -/
structure StepSummary where
  /-- The name of the rule. -/
  rule : String
  /-- The text of the application. -/
  args : String
  /-- The joined names of the vertex that came out. -/
  output : String
deriving DecidableEq

/-- An overview of a plan. -/
structure Summary where
  /-- The name of the query. -/
  query : String
  /-- How the search ended. -/
  outcome : SearchOutcome
  /-- The number of states. -/
  states : Nat
  /-- The number of steps between states. -/
  edges : Nat
  /-- The number of steps that led to a known state. -/
  sharedTargets : Nat
  /-- The steps of the plan. -/
  steps : List StepSummary
deriving DecidableEq

/-- The overview of a plan. -/
def summary (p : Plan) : Summary where
  query := p.queryName
  outcome := p.outcome
  states := p.graph.states.size
  edges := p.graph.steps.size
  sharedTargets := p.graph.sharedTargets
  steps := p.steps.map fun s =>
    ⟨s.step.rule.name, s.step.application.text, s.step.result.joinedName⟩

end Plan

end GraphPattern
