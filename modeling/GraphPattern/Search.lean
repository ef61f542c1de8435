import GraphPattern.Search.Graph

/-!
# Searching for a reduction

A search reduces a query in every way in which the rules apply, depth first: vertex by vertex, rule
by rule and application by application. A state that is already known is not explored again. The
search stops at the first goal, unless it is to be exhaustive, and it gives up when it holds more
states than allowed.
-/

namespace GraphPattern

/-- How a search is to be done. -/
structure SearchConfig where
  /-- Whether every state that can be reached is explored. -/
  exhaustive : Bool
  /-- The greatest number of states, if there is one. -/
  maxStates : Option Nat
deriving DecidableEq

namespace SearchConfig

/-- Stop at the first goal, whatever the number of states. -/
def standard : SearchConfig := ⟨false, none⟩

/-- Whether a number of states exceeds what is allowed. -/
def exceeds (config : SearchConfig) (states : Nat) : Bool := config.maxStates.any (· < states)

end SearchConfig

/-- How a search ends. -/
inductive SearchOutcome where
  /-- A goal was reached. -/
  | solved
  /-- Everything was explored without reaching a goal. -/
  | exhausted
  /-- There were more states than allowed. -/
  | capped
deriving DecidableEq

namespace SearchOutcome

/-- The text of an outcome. -/
def text : SearchOutcome → String
  | solved => "solved"
  | exhausted => "exhausted"
  | capped => "capped"

end SearchOutcome

/-- What a search has counted. -/
structure SearchCounters where
  /-- The states that were discovered after the start. -/
  statesCreated : Nat
  /-- The reductions that led to a known state. -/
  dedupHits : Nat
  /-- The reductions that were tried. -/
  applications : Nat
deriving DecidableEq

namespace SearchCounters

/-- Nothing has been counted. -/
def zero : SearchCounters := ⟨0, 0, 0⟩

end SearchCounters

/-- How far a search has come. -/
structure SearchProgress where
  /-- The states and steps so far. -/
  graph : SearchGraph
  /-- The counters so far. -/
  counters : SearchCounters

/-- A part of a search. -/
abbrev SearchAction := EStateM Error SearchProgress

namespace Search

/-- Explore one alternative after another. The first goal ends it, unless the search is exhaustive;
too many states end it in any case. -/
def tryAll {α : Type} (config : SearchConfig) (explore : α → SearchAction SearchOutcome) :
    SearchOutcome → List α → SearchAction SearchOutcome
  | found, [] => return found
  | found, a :: alternatives => do
    match ← explore a with
    | .capped => return .capped
    | .solved =>
      if config.exhaustive then tryAll config explore .solved alternatives else return .solved
    | .exhausted => tryAll config explore found alternatives

/-- Change the counters. -/
def count (change : SearchCounters → SearchCounters) : SearchAction Unit :=
  modify fun p => { p with counters := change p.counters }

/-- Change the graph. -/
def extend (change : SearchGraph → SearchGraph) : SearchAction Unit :=
  modify fun p => { p with graph := change p.graph }

/-- Reduce the query of a state and add the step. The answer is the state it leads to if that state
is new. -/
def reduce (state : StateId) (query : Query) (vertex : ItemId) (rule : Rule)
    (application : Application) : SearchAction (Option StateId) := do
  count fun c => { c with applications := c.applications + 1 }
  let reduced ← rule.apply query application
  let result ← reduced.result
  let step := fun target => SearchStep.mk state target vertex rule application result
  let graph := (← get).graph
  match graph.find? reduced.query.content with
  | some known =>
    if graph.reaches known state then
      throw (.invariant (.leadsBack (step known).text state known))
    count fun c => { c with dedupHits := c.dedupHits + 1 }
    extend fun g => g.addStep (step known)
    return none
  | none =>
    let target : StateId := ⟨graph.states.size⟩
    count fun c => { c with statesCreated := c.statesCreated + 1 }
    extend fun g => (g.addState reduced.query).addStep (step target)
    return some target

/-- Explore a state and what can be reached from it, down to a given depth. -/
def expand (rules : List Rule) (config : SearchConfig) :
    Nat → StateId → SearchAction SearchOutcome
  | 0, state => throw (.invariant (.tooDeep state))
  | depth + 1, state => do
    match (← get).graph.state? state with
    | none => throw (.invariant (.unknownState state))
    | some known =>
      if known.isGoal then return .solved
      let apply := fun (vertex : ItemId) (rule : Rule) (application : Application) => do
        match ← reduce state known.query vertex rule application with
        | none => return .exhausted
        | some target =>
          if config.exceeds (← get).graph.states.size then return .capped
          expand rules config depth target
      let ask := fun (vertex : ItemId) (rule : Rule) => do
        let applications ← rule.applications known.query vertex
        tryAll config (apply vertex rule) .exhausted applications
      tryAll config (fun vertex => tryAll config (ask vertex) .exhausted rules) .exhausted
        (known.query.vertices .whole)

/-- How deep a search can go. Every reduction by a rule of the library uses up a part of the query;
where the number of states is limited, no path can be longer than that. -/
def depthLimit (config : SearchConfig) (q : Query) : Nat :=
  match config.maxStates with
  | some states => states + 2
  | none =>
    (q.vertices .whole).length + 2 * (q.edges .whole).length + (q.subqueries .whole).length +
      (q.constraints .whole).length + 1

/-- Search from a query, down to a given depth. -/
def runTo (rules : List Rule) (config : SearchConfig) (depth : Nat) (q : Query) :
    Except Error (SearchOutcome × SearchProgress) :=
  match (expand rules config depth .start).run ⟨.ofQuery q, .zero⟩ with
  | .ok outcome progress => .ok (outcome, progress)
  | .error e _ => .error e

/-- Search from a query. -/
def run (rules : List Rule) (config : SearchConfig) (q : Query) :
    Except Error (SearchOutcome × SearchProgress) :=
  runTo rules config (depthLimit config q) q

end Search

end GraphPattern
