import GraphPattern.Rule.Matches

/-!
# Absorbing a self-loop

An edge that leads from a composite vertex back to it becomes a part of the vertex. A match remains
if one of its links joins the objects at the two ends of the edge.
-/

namespace GraphPattern.Rule.AbsorbSelfLoop

/-- The rule applies to every self-loop without annotation or marker at a settled vertex. -/
def applications (q : Query) (vertex : ItemId) : Except Error (List Application) := do
  if !isSettled (← q.item vertex) then return []
  let loops ← q.selfLoops vertex
  let plain ← loops.filterM fun edge => do
    let item ← q.item edge
    return !item.isAnnotated && !item.isMarked
  plain.mapM fun edge => Application.ofItems q [vertex, edge]

/-- Remove the edge and give its names to the vertex. -/
def apply (q : Query) (a : Application) : Except Error Reduced := do
  let vertex ← a.item 0
  let edge ← a.item 1
  Reduced.ofEdit q do
    let removed ← Query.removeEdge edge
    Query.addNames vertex removed.names
    return vertex

/-- Keep the matches that have a link, and add the links to them. -/
def replay (r : Replay) : WorkStep (Option String) := do
  let vertex ← r.application.item 0
  let (edge, ends) ← replayedEdge r 1
  Workspace.withScratch do
    let current ← Workspace.vertexTables r.before vertex
    let sources ← Workspace.rowsNamed current.objects ends.sourceName
    let targets ← Workspace.rowsNamed current.objects ends.targetName
    let found ← Workspace.linkMatches edge ends sources targets true
    let kept ← Workspace.temporary (Store.distinct found [Column.sourceMatch])
    let loops ← Workspace.temporary (Store.edgeMatches found Column.sourceMatch edge.joinedName)
    let objects ← Workspace.temporary
      (Store.keepMatches current.objects kept Column.sourceMatch)
    let oldLinks ← Workspace.temporary (Store.keepMatches current.links kept Column.sourceMatch)
    let links ← Workspace.temporary (Store.union [oldLinks, loops])
    let tables : SubgraphTables := ⟨← Workspace.keep objects, ← Workspace.keep links⟩
    Workspace.replace r.result.joinedName tables
  return some r.result.joinedName

end GraphPattern.Rule.AbsorbSelfLoop

namespace GraphPattern.Rule

/-- Absorb a self-loop. -/
def absorbSelfLoop : Rule :=
  ⟨"absorb-self-loop", AbsorbSelfLoop.applications, AbsorbSelfLoop.apply, AbsorbSelfLoop.replay⟩

end GraphPattern.Rule
