import GraphPattern.Store

/-!
# The workspace of a run

While a plan is run, the tables of every composite vertex are kept in a registry under the names of
the vertex, and tables that are needed only for a moment are scratch tables, which are released
when the work that made them is over, whether it succeeded or not.
-/

namespace GraphPattern

/-- The tables of the matches of a composite vertex. -/
structure SubgraphTables where
  /-- The matched objects. -/
  objects : TableId
  /-- The matched links. -/
  links : TableId
deriving DecidableEq

/-- The store, the registry and the scratch tables. -/
structure Workspace where
  /-- The store. -/
  store : Store
  /-- The tables of composite vertices by joined names. -/
  registry : OrderedMap String SubgraphTables
  /-- The tables that wait for their release. -/
  scratch : List TableId
deriving DecidableEq

/-- A step on a workspace. -/
abbrev WorkStep := EStateM Error Workspace

/-- A step on the store is a step on the workspace around it. -/
instance liftStoreStep : MonadLift StoreStep WorkStep where
  monadLift step := fun w =>
    match step.run w.store with
    | .ok a s => .ok a { w with store := s }
    | .error e s => .error (.store e) { w with store := s }

namespace Store

/-- The store without some tables. -/
def discard (s : Store) (ids : List TableId) : Store :=
  { s with tables := ids.foldl (fun tables id => tables.erase id) s.tables }

end Store

namespace Workspace

/-- A workspace around a store in which nothing has been done. -/
def fresh (store : Store) : Workspace := ⟨store, .empty, []⟩

/-- Add an entry to the registry. Without a table of links an empty one is created. -/
def put (name : String) (objects : TableId) (links : Option TableId) : WorkStep Unit := do
  if (← get).registry.contains name then refuseState (.tablesExist name)
  let links ←
    match links with
    | some links => pure links
    | none => Store.createTable Column.matched
  modify fun w => { w with registry := w.registry.insert name ⟨objects, links⟩ }

/-- Do a step on the store and catch its error. -/
def attempt (step : StoreStep Unit) : WorkStep (Option StoreError) := fun w =>
  match step.run w.store with
  | .ok _ s => .ok none { w with store := s }
  | .error e s => .ok (some e) { w with store := s }

/-- Release both tables of an entry, the second one in any case. -/
def releasePair (tables : SubgraphTables) : WorkStep Unit := do
  let objectError ← attempt (Store.release tables.objects)
  let linkError ← attempt (Store.release tables.links)
  match objectError <|> linkError with
  | some error => throw (.store error)
  | none => pure ()

/-- Put tables in the place of an entry, whose tables are released unless they are the same. -/
def replace (name : String) (tables : SubgraphTables) : WorkStep Unit := do
  let previous := (← get).registry.find? name
  modify fun w => { w with registry := w.registry.insert name tables }
  match previous with
  | some old => if old ≠ tables then releasePair old
  | none => pure ()

/-- The tables of an entry that must exist. -/
def require (name : String) : WorkStep SubgraphTables := do
  match (← get).registry.find? name with
  | some tables => return tables
  | none => refuseState (.noTables name)

/-- Remove an entry and keep its tables. -/
def take (name : String) : WorkStep SubgraphTables := do
  let tables ← require name
  modify fun w => { w with registry := w.registry.erase name }
  return tables

/-- Remove an entry and release its tables. -/
def releaseEntry (name : String) : WorkStep Unit := do
  let tables ← take name
  releasePair tables

/-- Release the tables of several entries, all of them in any case, and list the errors. -/
def releaseAll : List SubgraphTables → Workspace → List Error × Workspace
  | [], w => ([], w)
  | tables :: rest, w =>
    match (releasePair tables).run w with
    | .ok _ w => releaseAll rest w
    | .error e w =>
      let (errors, w) := releaseAll rest w
      (e :: errors, w)

/-- Empty the registry and release all its tables. The error is the first of those that occur. -/
def clear : WorkStep Unit := do
  let w ← get
  let (errors, w) := releaseAll w.registry.values { w with registry := .empty }
  set w
  match errors with
  | [] => pure ()
  | error :: _ => throw error

/-- The workspace without its registry, whose tables are released as far as they are there. -/
def dropRegistry (w : Workspace) : Workspace :=
  (releaseAll w.registry.values { w with registry := .empty }).2

/-- Note a scratch table. -/
def track (id : TableId) : WorkStep TableId := do
  modify fun w => { w with scratch := w.scratch ++ [id] }
  return id

/-- Note both tables of an entry as scratch tables. -/
def trackPair (tables : SubgraphTables) : WorkStep SubgraphTables := do
  let _ ← track tables.objects
  let _ ← track tables.links
  return tables

/-- Keep a table that was a scratch table. -/
def keep (id : TableId) : WorkStep TableId := do
  modify fun w => { w with scratch := w.scratch.filter (· ≠ id) }
  return id

/-- Release all scratch tables that are still there. -/
def releaseScratch (w : Workspace) : Workspace :=
  { w with store := w.store.discard w.scratch, scratch := [] }

/-- Do some work with scratch tables of its own. -/
def withScratch {α : Type} (work : WorkStep α) : WorkStep α := fun w =>
  match work.run { w with scratch := [] } with
  | .ok a after => .ok a { after.releaseScratch with scratch := w.scratch }
  | .error e after => .error e { after.releaseScratch with scratch := w.scratch }

/-- Make a scratch table. -/
def temporary (step : StoreStep TableId) : WorkStep TableId := do
  let id ← step
  track id

end Workspace

end GraphPattern
