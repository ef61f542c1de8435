import GraphPattern.Rule.Matches

/-!
# Absorbing an annotated vertex

A vertex that occurs a number of times, and that hangs on a composite vertex by one annotated edge,
becomes a part of the composite vertex. A match remains if enough objects or matches of the
annotated vertex are joined to it by a number of links that the edge allows. The upper bound of the
vertex is not looked at; a provenance marker keeps it for later.
-/

namespace GraphPattern.Rule.AbsorbAnnotatedVertex

/-- The application along an edge at a vertex, if there is one. -/
def alongEdge (q : Query) (vertex edge : ItemId) : Except Error (List Application) := do
  let item ← q.item edge
  match item.ends?.bind fun ends => ends.opposite? vertex with
  | none => return []
  | some other =>
    if other = vertex || !item.isAnnotated || item.isMarked then return []
    if ← q.crossesBoundary edge then return []
    let absorbed ← q.item other
    if !absorbed.isAnnotated || absorbed.isMarked then return []
    if (← q.vertexEdges other).length ≠ 1 then return []
    return [← Application.ofItems q [vertex, edge, other]]

/-- The rule applies to every annotated edge without marker that joins a settled vertex to an
annotated one at which no other edge ends, when both lie in one container. -/
def applications (q : Query) (vertex : ItemId) : Except Error (List Application) := do
  if !isSettled (← q.item vertex) then return []
  let found ← (← q.vertexEdges vertex).mapM (alongEdge q vertex)
  return found.flatten

/-- The marker for the upper bound of the absorbed vertex, if it has one. -/
def marker (q : Query) (edge : ItemId) (absorbed : Item) : Except Error (Option Provenance) := do
  match absorbed.bounds.bind Annotation.max with
  | none => return none
  | some max =>
    let item ← q.item edge
    match item.ends?.bind fun ends => ends.nameAmong? absorbed.names with
    | none => refuseState .edgeMissesAbsorbed
    | some name => return some (← Provenance.ofNames absorbed.joinedName name (some max))

/-- Absorb the edge and the annotated vertex, give their names to the vertex, and mark it if an
upper bound is still to be enforced. -/
def apply (q : Query) (a : Application) : Except Error Reduced := do
  let kept ← a.item 0
  let edge ← a.item 1
  let absorbed ← a.item 2
  let item ← q.item absorbed
  let marker ← marker q edge item
  let names := item.names ++ (← q.item edge).names
  Reduced.ofEdit q do
    Query.absorb edge absorbed
    Query.addNames kept names
    if marker.isSome then Query.setProvenance kept marker
    return kept

/-- The matches that remain, with the column that holds their numbers. -/
def survivors (min : Nat) (pairs objects : TableId) (keptColumn : String) :
    WorkStep (TableId × String) := do
  if 0 < min then
    let counts ← Workspace.temporary (Store.countBy pairs [keptColumn] Column.count)
    let enough := RowFilter.columnValue Column.count .ge (.int min)
    return (← Workspace.temporary (Store.filter counts enough), keptColumn)
  else
    return (← Workspace.temporary (Store.distinct objects [Column.subgraph]), Column.subgraph)

/-- Keep the matches to which enough is joined, and add what is joined to them. -/
def replay (r : Replay) : WorkStep (Option String) := do
  let keptId ← r.application.item 0
  let absorbedId ← r.application.item 2
  let (edge, ends) ← replayedEdge r 1
  let bounds := edge.bounds.getD .unbounded
  let min := ((← r.before.item absorbedId).bounds.bind Annotation.min).getD 0
  Workspace.withScratch do
    let kept ← Workspace.vertexTables r.before keptId
    let absorbed ← Workspace.vertexTables r.before absorbedId
    let keptItem ← r.before.item keptId
    let (source, target, keptColumn, absorbedColumn) :=
      if keptItem.hasName ends.sourceName then
        (kept, absorbed, Column.sourceMatch, Column.targetMatch)
      else (absorbed, kept, Column.targetMatch, Column.sourceMatch)
    let sources ← Workspace.rowsNamed source.objects ends.sourceName
    let targets ← Workspace.rowsNamed target.objects ends.targetName
    let found ← Workspace.linkMatches edge ends sources targets false
    let pairs ← Workspace.joinedPairs found bounds
    let (remaining, column) ← survivors min pairs kept.objects keptColumn
    let livePairs ← Workspace.temporary (Store.join pairs remaining [(keptColumn, column)]
      [.left Column.sourceMatch Column.sourceMatch, .left Column.targetMatch Column.targetMatch])
    let liveLinks ← Workspace.temporary (Store.join found livePairs
      [(Column.sourceMatch, Column.sourceMatch), (Column.targetMatch, Column.targetMatch)]
      [.left Column.linkId Column.linkId, .left keptColumn keptColumn])
    let edgeRows ← Workspace.temporary
      (Store.edgeMatches liveLinks keptColumn edge.joinedName)
    let keptObjects ← Workspace.temporary (Store.keepMatches kept.objects remaining column)
    let keptLinks ← Workspace.temporary (Store.keepMatches kept.links remaining column)
    let moved := fun (rows : TableId) =>
      Workspace.temporary (Store.moveMatches rows livePairs absorbedColumn keptColumn)
    let movedObjects ← moved absorbed.objects
    let movedLinks ← moved absorbed.links
    let objects ← Workspace.temporary (Store.union [keptObjects, movedObjects])
    let links ← Workspace.temporary (Store.union [keptLinks, movedLinks, edgeRows])
    let objects ← Workspace.temporary (Store.distinct objects Column.matched)
    let links ← Workspace.temporary (Store.distinct links Column.matched)
    let objects ← Workspace.keep objects
    let links ← Workspace.keep links
    Workspace.put r.result.joinedName objects (some links)
  return some r.result.joinedName

end GraphPattern.Rule.AbsorbAnnotatedVertex

namespace GraphPattern.Rule

/-- Absorb an annotated vertex. -/
def absorbAnnotatedVertex : Rule :=
  ⟨"absorb-annotated-vertex", AbsorbAnnotatedVertex.applications, AbsorbAnnotatedVertex.apply,
    AbsorbAnnotatedVertex.replay⟩

end GraphPattern.Rule
