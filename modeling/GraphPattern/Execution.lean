import GraphPattern.DerivedLink
import GraphPattern.Plan

/-!
# Running a plan

The steps of a plan are replayed on the data, and the tables that remain become a new result
container. Steps whose results are stored in a container already are fetched from there, and steps
that feed only fetched steps are left out. The container is created when every step has succeeded;
no table stays behind in any case.
-/

namespace GraphPattern

/-- How a plan is to be run. -/
structure ExecutionConfig where
  /-- Whether an existing container of the same name is deleted. -/
  replaceExisting : Bool
  /-- Whether changes are made durable after every step. -/
  commitEachStep : Bool
deriving DecidableEq

namespace ExecutionConfig

/-- Keep existing containers and commit after every step. -/
def standard : ExecutionConfig := ⟨false, true⟩

end ExecutionConfig

/-- What a run has done. -/
structure ExecutionReport where
  /-- The name of the new container. -/
  container : String
  /-- The number of steps that were replayed. -/
  stepsExecuted : Nat
  /-- The number of steps that were fetched or left out. -/
  stepsSkipped : Nat
  /-- The number of rows for objects. -/
  objects : Nat
  /-- The number of rows for links. -/
  links : Nat
  /-- The number of matches. -/
  subgraphs : Nat
  /-- The number of derived links. -/
  derivedLinks : Nat
deriving DecidableEq

/-- What is done with a step. -/
inductive StepMode where
  /-- It is left out. -/
  | skip
  /-- Its result is fetched from a container. -/
  | fetch (container : String)
  /-- It is replayed. -/
  | execute
deriving DecidableEq

namespace Execution

/-- The container in which all of some items are cached, if there is one. -/
def commonSource? (cached : OrderedMap String String) : List String → Option String
  | [] => none
  | name :: names =>
    (cached.find? name).filter fun source => names.all fun n => cached.find? n = some source

/-- What is done with each step, from the last one back, and which results the steps before have to
provide. A step is replayed or fetched when its result is needed; a replayed step needs the results
named by its items. -/
def modes (cached : OrderedMap String String) (finalName : String) :
    List PlanStep → List StepMode × List String
  | [] => ([], [finalName])
  | s :: steps =>
    let (later, needed) := modes cached finalName steps
    let result := s.step.result
    if result.joinedName ∈ needed then
      let others := needed.filter (· ≠ result.joinedName)
      match commonSource? cached result.names with
      | some source => (.fetch source :: later, others)
      | none => (.execute :: later, others ++ s.step.application.names)
    else (.skip :: later, needed)

/-- Do some work in which a refusal of the store is a failure of the named step. -/
def labelled {α : Type} (label : String) (work : WorkStep α) : WorkStep α := fun w =>
  match work.run w with
  | .ok a w => .ok a w
  | .error e w => .error (e.inStep label) w

/-- Do what has to be done with a step. -/
def runStep (config : ExecutionConfig) (label : String) (s : PlanStep) : StepMode → WorkStep Unit
  | .skip => pure ()
  | .fetch container => do
    let (objects, links) ← labelled label (Store.itemTables container s.step.result.names)
    Workspace.replace s.step.result.joinedName ⟨objects, links⟩
  | .execute => labelled label do
    let _ ← s.step.rule.replay s.replay
    if config.commitEachStep then Store.commit

/-- Do what has to be done with several steps, the first of which has the given position. -/
def runSteps (config : ExecutionConfig) (total : Nat) :
    Nat → List (PlanStep × StepMode) → WorkStep Unit
  | _, [] => pure ()
  | position, (s, mode) :: steps => do
    runStep config s!"{position}/{total} {s.step.text}" s mode
    runSteps config total (position + 1) steps

/-- Make room for the new container. -/
def clearDestination (config : ExecutionConfig) (destination : String) : WorkStep Unit := do
  if ← Store.hasContainer destination then
    if !config.replaceExisting then refuseState (.destinationExists destination)
    Store.deleteContainer destination

/-- Release the fetched results that are no longer needed. -/
def releaseFetched (finalName : String) (steps : List (PlanStep × StepMode)) : WorkStep Unit := do
  let fetched := steps.filterMap fun (s, mode) =>
    match mode with
    | .fetch _ => some s.step.result.joinedName
    | _ => none
  (orderedSet fetched).forM fun name => do
    if name ≠ finalName && (← get).registry.contains name then Workspace.releaseEntry name

/-- Make the changes durable, or delete the new container. -/
def commitContainer (destination : String) : WorkStep Unit := do
  match ← Workspace.attempt Store.commit with
  | none => pure ()
  | some error =>
    let _ ← Workspace.attempt (Store.deleteContainer destination)
    throw (.store error)

/-- Store the tables that remain as a container, and return the numbers of rows for objects and for
links. -/
def storeResult (finalName destination : String) : WorkStep (Nat × Nat) := do
  let names := (← get).registry.keys
  if names ≠ [finalName] then throw (.invariant (.leftoverTables finalName names))
  let tables ← Workspace.take finalName
  Workspace.withScratch do
    let _ ← Workspace.trackPair tables
    let objects ← Store.rowCount tables.objects
    let links ← Store.rowCount tables.links
    Store.createContainer destination tables.objects tables.links
    commitContainer destination
    return (objects, links)

/-- Run the steps of a plan for a query, the last of which leads to the given vertex. -/
def runPlan (config : ExecutionConfig) (q : Query) (steps : List PlanStep) (finalName : String)
    (destination : String) : WorkStep ExecutionReport := do
  clearDestination config destination
  let planned := steps.zip (modes (q.cachedItems .whole) finalName steps).1
  runSteps config steps.length 1 planned
  releaseFetched finalName planned
  let (objects, links) ← storeResult finalName destination
  let subgraphs ← Store.subgraphCount destination
  let derivedLinks ← Workspace.deriveAllLinks destination (q.derivedLinks .whole)
  let executed := planned.countP fun (_, mode) => mode = .execute
  return ⟨destination, executed, planned.length - executed, objects, links, subgraphs,
    derivedLinks⟩

/-- The store after some work that began with an empty registry; what is left in the registry is
released. -/
def onStore {α : Type} (work : WorkStep α) : EStateM Error Store α := fun s =>
  match work.run (.fresh s) with
  | .ok a w => .ok a w.dropRegistry.store
  | .error e w => .error e w.dropRegistry.store

/-- Run a plan and keep the matches under a name. -/
def run (config : ExecutionConfig) (plan : Plan) (destination : String) :
    EStateM Error Store ExecutionReport := do
  if !plan.isSolved then refuseState (.unplanned plan.queryName)
  match plan.graph.state? .start, plan.steps.getLast? with
  | some start, some last =>
    onStore (runPlan config start.query plan.steps last.step.result.joinedName destination)
  | _, _ => refuseState (.emptyPlan plan.queryName)

end Execution

end GraphPattern
