import GraphPattern.Query.Content
import GraphPattern.Rule.Basic

/-!
# Search graphs

The states of a search are queries, no two of which have the same content. Its steps are the
reductions that have been tried. States and steps are numbered in the order of their discovery. The
fingerprints of the contents are indexed, so only the states whose content has the fingerprint that
is looked for are compared.
-/

namespace GraphPattern

/-- A query that a search has come upon. -/
structure SearchState where
  /-- The query. -/
  query : Query
  /-- Its content, by which the state is found again. -/
  content : Content
  /-- The steps that leave the state, in the order of discovery. -/
  out : List StepId
  /-- The content belongs to the query. -/
  content_eq : content = query.content

namespace SearchState

/-- The state of a query that no step has left. -/
def ofQuery (q : Query) : SearchState := ⟨q, q.content, [], rfl⟩

/-- Whether the state is a goal. -/
def isGoal (s : SearchState) : Bool := s.query.isConsolidated

end SearchState

/-- A reduction that a search has tried. -/
structure SearchStep where
  /-- The state that was reduced. -/
  source : StateId
  /-- The state with the content that came out. -/
  target : StateId
  /-- The vertex about which the rule was asked. -/
  vertex : ItemId
  /-- The rule. -/
  rule : Rule
  /-- The way in which it applied. -/
  application : Application
  /-- What it led to. -/
  result : ResultVertex

namespace SearchStep

/-- The text of a step. -/
def text (s : SearchStep) : String := s!"{s.rule.name}:{s.application.text}"

end SearchStep

/-- The states under the fingerprints of their contents. -/
abbrev SearchIndex := OrderedMap UInt64 (List StateId)

namespace SearchIndex

/-- The states under a fingerprint, in the order of their discovery. -/
def bucket (index : SearchIndex) (key : UInt64) : List StateId := (index.find? key).getD []

/-- Put a state under a fingerprint. -/
def add (index : SearchIndex) (key : UInt64) (s : StateId) : SearchIndex :=
  index.insert key (bucket index key ++ [s])

theorem mem_bucket_add {index : SearchIndex} {key other : UInt64} {s t : StateId} :
    t ∈ bucket (add index key s) other ↔ t ∈ bucket index other ∨ (t = s ∧ other = key) := by
  by_cases h : key = other
  · subst h
    simp [add, bucket]
  · simp [add, bucket, OrderedMap.find?_insert_of_ne _ h, Ne.symm h]

end SearchIndex

/-- The states and the steps of a search. -/
structure SearchGraph where
  /-- The states. -/
  states : Array SearchState
  /-- The steps. -/
  steps : Array SearchStep
  /-- The states by the fingerprints of their contents. -/
  index : SearchIndex
  /-- The index has every state under the fingerprint of its content and nothing else. -/
  indexed : ∀ key s, s ∈ index.bucket key ↔
    ∃ st, states[s.index]? = some st ∧ st.content.fingerprint = key

namespace SearchGraph

/-- The graph that holds nothing. -/
def empty : SearchGraph := ⟨#[], #[], .empty, fun _ _ => ⟨nofun, nofun⟩⟩

/-- The state of a number. -/
def state? (g : SearchGraph) (s : StateId) : Option SearchState := g.states[s.index]?

/-- The step of a number. -/
def step? (g : SearchGraph) (e : StepId) : Option SearchStep := g.steps[e.index]?

/-- The numbers of the states. -/
def stateIds (g : SearchGraph) : List StateId := (List.range g.states.size).map StateId.mk

/-- The steps that leave a state. -/
def out (g : SearchGraph) (s : StateId) : List StepId := (g.state? s).elim [] SearchState.out

/-- The state that a step leads to. -/
def target? (g : SearchGraph) (e : StepId) : Option StateId := (g.step? e).map SearchStep.target

/-- The states to which a step leads from a state. -/
def successors (g : SearchGraph) (s : StateId) : List StateId := (g.out s).filterMap g.target?

/-- Whether a state is a goal. -/
def isGoal (g : SearchGraph) (s : StateId) : Bool := (g.state? s).any SearchState.isGoal

/-- The state whose query has a given content. Only the states with its fingerprint are compared. -/
def find? (g : SearchGraph) (content : Content) : Option StateId :=
  (g.index.bucket content.fingerprint).find? fun s =>
    (g.state? s).any fun st => st.content = content

/-- The number of steps that led to a state already known. -/
def sharedTargets (g : SearchGraph) : Nat := g.steps.size + 1 - g.states.size

/-- Add a state. -/
def addState (g : SearchGraph) (q : Query) : SearchGraph where
  states := g.states.push (.ofQuery q)
  steps := g.steps
  index := g.index.add q.fingerprint ⟨g.states.size⟩
  indexed key s := by
    obtain ⟨i⟩ := s
    rw [SearchIndex.mem_bucket_add, g.indexed, Array.getElem?_push]
    by_cases h : i = g.states.size
    · simp [h, SearchState.ofQuery, Query.fingerprint, eq_comm]
    · simp [h]

/-- The graph that holds nothing but the state of a query. -/
def ofQuery (q : Query) : SearchGraph := empty.addState q

/-- Add a step. -/
def addStep (g : SearchGraph) (step : SearchStep) : SearchGraph where
  states := g.states.modify step.source.index fun s =>
    { s with out := s.out ++ [⟨g.steps.size⟩] }
  steps := g.steps.push step
  index := g.index
  indexed key s := by
    rw [g.indexed, Array.getElem?_modify]
    split <;> cases g.states[s.index]? <;> simp

/-- Mark the states that can be reached from those on a list without passing a marked one. Every
state is unfolded once, so the list never grows by more than the steps. -/
def markFrom (g : SearchGraph) : Nat → List StateId → Array Bool → Array Bool
  | 0, _, seen => seen
  | _ + 1, [], seen => seen
  | fuel + 1, s :: pending, seen =>
    if seen.getD s.index true then g.markFrom fuel pending seen
    else g.markFrom fuel (g.successors s ++ pending) (seen.setIfInBounds s.index true)

/-- For every state whether it can be reached from a given one. -/
def reachMarks (g : SearchGraph) (source : StateId) : Array Bool :=
  g.markFrom (g.steps.size + 2) [source] (Array.replicate g.states.size false)

/-- Whether a state can be reached from another one. A state reaches itself. -/
def reaches (g : SearchGraph) (source target : StateId) : Bool :=
  (g.reachMarks source).getD target.index false

/-- The states that can be reached from a state. -/
def reachable (g : SearchGraph) (source : StateId) : List StateId :=
  let marks := g.reachMarks source
  g.stateIds.filter fun s => marks.getD s.index false

end SearchGraph

end GraphPattern
