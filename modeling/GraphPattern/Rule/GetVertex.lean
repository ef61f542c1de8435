import GraphPattern.Rule.Matches

/-!
# Matching a vertex

A plain vertex that must occur exactly once in every match becomes a composite one. Its matches are
the objects that satisfy its condition.
-/

namespace GraphPattern.Rule.GetVertex

/-- The rule applies to a plain vertex without annotation at which no marked edge ends. -/
def applications (q : Query) (vertex : ItemId) : Except Error (List Application) := do
  let item ← q.item vertex
  if !item.isVertex || item.isComposite || item.isAnnotated then return []
  let edges ← (← q.vertexEdges vertex).mapM q.item
  if edges.any Item.isMarked then return []
  return [← Application.ofItems q [vertex]]

/-- Put a composite vertex of the same name in the place of the vertex. -/
def apply (q : Query) (a : Application) : Except Error Reduced := do
  let vertex ← a.item 0
  let replacement ← Item.newComposite (← q.item vertex).names
  Reduced.ofEdit q (Query.replaceVertex vertex replacement)

/-- Match the objects. -/
def replay (r : Replay) : WorkStep (Option String) := do
  let vertex ← r.before.item (← r.application.item 0)
  let objects ← Store.objectMatches vertex.condition vertex.joinedName
  Workspace.withScratch do
    let _ ← Workspace.track objects
    Workspace.put r.result.joinedName objects none
    let _ ← Workspace.keep objects
  return some r.result.joinedName

end GraphPattern.Rule.GetVertex

namespace GraphPattern.Rule

/-- Match a vertex. -/
def getVertex : Rule := ⟨"get-vertex", GetVertex.applications, GetVertex.apply, GetVertex.replay⟩

end GraphPattern.Rule
