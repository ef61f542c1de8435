import GraphPattern.Rule.Basic

/-!
# Eliminating a subquery

A subquery that holds nothing but a composite vertex is merged into its parent, and the vertex
takes over the annotation of the subquery. The tables of the vertex stay as they are.
-/

namespace GraphPattern.Rule.EliminateSubquery

/-- Whether a container is a subquery that holds nothing but one vertex. -/
def holdsOnly (c : Container) (vertex : ItemId) : Bool :=
  c.isSubquery && c.vertices = [vertex] && c.edges.isEmpty && c.subqueries.isEmpty &&
    c.constraints.isEmpty

/-- The rule applies to a settled vertex that is alone in a subquery. -/
def applications (q : Query) (vertex : ItemId) : Except Error (List Application) := do
  let item ← q.item vertex
  if !isSettled item then return []
  match item.container with
  | none => return []
  | some owner =>
    if !holdsOnly (← q.container owner) vertex then return []
    return [← Application.ofItems q [vertex]]

/-- Merge the subquery into its parent and hand its annotation to the vertex. -/
def apply (q : Query) (a : Application) : Except Error Reduced := do
  let vertex ← a.item 0
  match (← q.item vertex).container with
  | none => refuseState .vertexWithoutContainer
  | some owner =>
    let bounds := (← q.container owner).bounds
    Reduced.ofEdit q do
      Query.flatten owner
      Query.setBounds vertex bounds
      return vertex

/-- Nothing is written. -/
def replay (_ : Replay) : WorkStep (Option String) := return none

end GraphPattern.Rule.EliminateSubquery

namespace GraphPattern.Rule

/-- Eliminate a subquery. -/
def eliminateSubquery : Rule :=
  ⟨"eliminate-subquery", EliminateSubquery.applications, EliminateSubquery.apply,
    EliminateSubquery.replay⟩

end GraphPattern.Rule
