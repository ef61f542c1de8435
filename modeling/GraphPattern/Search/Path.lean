import GraphPattern.Search.Graph

/-!
# Shortest paths to a goal

The distance of a state from the nearest goal is found depth first, from the distances of the states
behind it. A distance that is known is not looked for again, and a state that is met once more while
the states behind it are being looked at is taken for one from which no goal can be reached. A path
then follows, from every state, the first step that brings the goal one step nearer.
-/

namespace GraphPattern

/-- What is known of the distance of a state from the nearest goal. -/
inductive Distance where
  /-- Nothing yet. -/
  | unvisited
  /-- The states behind the state are being looked at. -/
  | inProgress
  /-- No goal can be reached. -/
  | unreachable
  /-- The nearest goal is that many steps away. -/
  | steps (count : Nat)
deriving DecidableEq

namespace Distance

/-- The distance of a state, if the nearest goal behind it is that many steps away. -/
def ofNearest (nearest : Option Nat) : Distance := nearest.elim unreachable steps

/-- The smaller of two numbers of steps, the second one by way of a state at a distance. -/
def nearer (best : Option Nat) : Distance → Option Nat
  | steps d => if best.all (d + 1 < ·) then some (d + 1) else best
  | _ => best

end Distance

/-- The distances of the states by number, as far as they are known. -/
abbrev Distances := Array Distance

namespace Distances

/-- What is known of a state. No goal can be reached from what is not a state. -/
def of (known : Distances) (s : StateId) : Distance := known.getD s.index .unreachable

/-- The distances after that of one state has become known. -/
def note (known : Distances) (s : StateId) (d : Distance) : Distances :=
  known.setIfInBounds s.index d

/-- Look at some states one after another. The answer is the smallest number of steps to a goal by
way of one of them. -/
def nearest (visit : StateId → Distances → Distance × Distances) :
    List StateId → Option Nat → Distances → Option Nat × Distances
  | [], best, known => (best, known)
  | t :: ts, best, known =>
    let (d, known) := visit t known
    nearest visit ts (d.nearer best) known

end Distances

namespace SearchGraph

/-- Find the distance of a state, and note it together with all distances that are found on the way.
Every visit of a state that was not visited before goes one level deeper. -/
def visit (g : SearchGraph) : Nat → StateId → Distances → Distance × Distances
  | 0, _, known => (.unreachable, known)
  | depth + 1, s, known =>
    match known.of s with
    | .unvisited =>
      if g.isGoal s then (.steps 0, known.note s (.steps 0))
      else
        let (best, known) :=
          Distances.nearest (g.visit depth) (g.successors s) none (known.note s .inProgress)
        (.ofNearest best, known.note s (.ofNearest best))
    | .inProgress => (.unreachable, known)
    | d => (d, known)

/-- No state has been visited. -/
def unknown (g : SearchGraph) : Distances := Array.replicate g.states.size .unvisited

/-- The distances that are known after a state has been visited. A visit goes no deeper than there
are states. -/
def explore (g : SearchGraph) (known : Distances) (s : StateId) : Distances :=
  (g.visit (g.states.size + 1) s known).2

/-- The distances of all states. -/
def distances (g : SearchGraph) : Distances := g.stateIds.foldl g.explore g.unknown

/-- Follow the first steps along which the distance decreases, until a goal is met. -/
def descend (g : SearchGraph) (known : Distances) : Nat → StateId → Option (List StepId)
  | 0, s => if g.isGoal s then some [] else none
  | remaining + 1, s =>
    if g.isGoal s then some []
    else do
      let e ← (g.out s).find? fun e =>
        (g.target? e).any fun t => known.of t = .steps remaining
      let t ← g.target? e
      return e :: (← g.descend known remaining t)

/-- The path that known distances lead along from a state to a goal. -/
def pathAlong? (g : SearchGraph) (known : Distances) (start : StateId) : Option (List StepId) :=
  match known.of start with
  | .steps remaining => g.descend known remaining start
  | _ => none

/-- The steps of a shortest path from a state to a goal, if a goal can be reached. Of several
shortest paths it is the one whose steps were discovered first, from the first step on. -/
def shortestPath? (g : SearchGraph) (start : StateId) : Option (List StepId) :=
  g.pathAlong? (g.explore g.unknown start) start

end SearchGraph

end GraphPattern
