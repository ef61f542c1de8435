import GraphPattern.Rule.Matches

/-!
# Collapsing an edge

Two composite vertices that an edge joins become one. Every pair of their matches that a link
joins is a new match; if the edge is annotated, its bounds apply to the number of links that join
the pair.
-/

namespace GraphPattern.Rule.CollapseEdge

/-- Whether a vertex takes part. -/
def takesPart (q : Query) (vertex : ItemId) : Except Error Bool :=
  return isSettled (← q.item vertex)

/-- The application along an edge at a vertex, if there is one. -/
def alongEdge (q : Query) (vertex edge : ItemId) : Except Error (List Application) := do
  let item ← q.item edge
  match item.ends?.bind fun ends => ends.opposite? vertex with
  | none => return []
  | some other =>
    if other = vertex || item.isMarked then return []
    if ← q.crossesBoundary edge then return []
    if ← takesPart q other then return [← Application.ofItems q [vertex, edge, other]]
    return []

/-- The rule applies to every edge without marker that joins two settled vertices of one
container. -/
def applications (q : Query) (vertex : ItemId) : Except Error (List Application) := do
  if !(← takesPart q vertex) then return []
  let found ← (← q.vertexEdges vertex).mapM (alongEdge q vertex)
  return found.flatten

/-- Absorb the edge and the other vertex, and give their names to the vertex. -/
def apply (q : Query) (a : Application) : Except Error Reduced := do
  let kept ← a.item 0
  let edge ← a.item 1
  let absorbed ← a.item 2
  let names := (← q.item absorbed).names ++ (← q.item edge).names
  Reduced.ofEdit q do
    Query.absorb edge absorbed
    Query.addNames kept names
    return kept

/-- The pairs of matches that become new matches, numbered. -/
def numberedPairs (edge : Item) (found : TableId) : WorkStep TableId := do
  let pairs ←
    match edge.bounds with
    | some bounds => Workspace.joinedPairs found bounds
    | none =>
      Workspace.temporary (Store.distinct found [Column.sourceMatch, Column.targetMatch])
  Store.addRowNumber pairs Column.newMatch
  return pairs

/-- Join the matches of the two vertices. -/
def replay (r : Replay) : WorkStep (Option String) := do
  let left ← r.application.item 0
  let right ← r.application.item 2
  let (edge, ends) ← replayedEdge r 1
  Workspace.withScratch do
    let leftTables ← Workspace.vertexTables r.before left
    let rightTables ← Workspace.vertexTables r.before right
    let leftItem ← r.before.item left
    let (source, target) :=
      if leftItem.hasName ends.sourceName then (leftTables, rightTables)
      else (rightTables, leftTables)
    let sources ← Workspace.rowsNamed source.objects ends.sourceName
    let targets ← Workspace.rowsNamed target.objects ends.targetName
    let found ← Workspace.linkMatches edge ends sources targets false
    let pairs ← numberedPairs edge found
    let numbered ← Workspace.temporary (Store.join found pairs
      [(Column.sourceMatch, Column.sourceMatch), (Column.targetMatch, Column.targetMatch)]
      [.left Column.linkId Column.linkId, .right Column.newMatch Column.newMatch])
    let edgeRows ← Workspace.temporary
      (Store.edgeMatches numbered Column.newMatch edge.joinedName)
    let moved := fun (rows : TableId) (old : String) =>
      Workspace.temporary (Store.moveMatches rows pairs old Column.newMatch)
    let sourceObjects ← moved source.objects Column.sourceMatch
    let sourceLinks ← moved source.links Column.sourceMatch
    let targetObjects ← moved target.objects Column.targetMatch
    let targetLinks ← moved target.links Column.targetMatch
    let objects ← Workspace.temporary (Store.union [sourceObjects, targetObjects])
    let links ← Workspace.temporary (Store.union [edgeRows, sourceLinks, targetLinks])
    let objects ← Workspace.keep objects
    let links ← Workspace.keep links
    Workspace.put r.result.joinedName objects (some links)
  return some r.result.joinedName

end GraphPattern.Rule.CollapseEdge

namespace GraphPattern.Rule

/-- Collapse an edge. -/
def collapseEdge : Rule :=
  ⟨"collapse-edge", CollapseEdge.applications, CollapseEdge.apply, CollapseEdge.replay⟩

end GraphPattern.Rule
