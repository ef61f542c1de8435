import GraphPattern.Rule.Basic
import GraphPattern.Store.Source

/-!
# Working on tables of matches

A table of matches has a row for every object or link of every match, with the number of the match
and the name of the item of the query that it matched. These are the operations that rules combine
when they replay their reductions.
-/

namespace GraphPattern

/-! The names of the columns of intermediate tables. -/

namespace Column

/-- The match at the first end of an edge. -/
def sourceMatch : String := "s_from"

/-- The match at the second end of an edge. -/
def targetMatch : String := "s_to"

/-- The size of a group. -/
def count : String := "n"

/-- The number of a new match. -/
def newMatch : String := "new_subg"

/-- The object at the far end of a link. -/
def farObject : String := "far"

end Column

namespace Store

/-- Change a table that is released if the change fails. -/
def guarded (id : TableId) (step : StoreStep Unit) : StoreStep TableId := fun s =>
  match step.run s with
  | .ok _ s => .ok id s
  | .error e s => .error e (s.discard [id])

/-- A match for every object that satisfies a condition. -/
def objectMatches (condition : Option Condition) (name : String) : StoreStep TableId := do
  let id ← matchingObjects condition
  guarded id do
    renameColumn id Column.objectId Column.itemId
    addRowNumber id Column.subgraph
    addConstant id Column.name (.string name)

/-- The rows of some matches. The table of the matches to keep must have each of them once. -/
def keepMatches (rows kept : TableId) (column : String) : StoreStep TableId :=
  join rows kept [(Column.subgraph, column)]
    (Column.matched.map fun name => JoinColumn.left name name)

/-- The rows of some matches as rows of other ones: each pair of an old and a new match copies the
rows of the old one. -/
def moveMatches (rows pairs : TableId) (old new : String) : StoreStep TableId :=
  join rows pairs [(Column.subgraph, old)]
    [.left Column.itemId Column.itemId, .right new Column.subgraph, .left Column.name Column.name]

/-- The rows of links that were found, under the name of their edge. -/
def edgeMatches (found : TableId) (column name : String) : StoreStep TableId := do
  let id ← distinct found [Column.linkId, column]
  guarded id do
    renameColumn id Column.linkId Column.itemId
    renameColumn id column Column.subgraph
    addConstant id Column.name (.string name)

end Store

namespace Annotation

/-- The bounds as a condition on the numbers in a column. -/
def rowFilter (a : Annotation) (column : String) : RowFilter :=
  let bound := fun (operator : Comparison) (n : Nat) =>
    RowFilter.columnValue column operator (.int n)
  .all ((a.min.map (bound .ge)).toList ++ (a.max.map (bound .le)).toList)

end Annotation

namespace Workspace

/-- The tables of a vertex: those of a composite one are taken out of the registry, and a plain one
is matched anew. -/
def vertexTables (q : Query) (vertex : ItemId) : WorkStep SubgraphTables := do
  let item ← q.item vertex
  if item.isComposite then
    let tables ← take item.joinedName
    trackPair tables
  else
    let objects ← temporary (Store.objectMatches item.condition item.firstName)
    let links ← temporary (Store.createTable Column.matched)
    return ⟨objects, links⟩

/-- The rows of one item of the query. -/
def rowsNamed (rows : TableId) (name : String) : WorkStep TableId :=
  temporary (Store.filter rows (.columnValue Column.name .eq (.string name)))

/-- The links that lead from an object of the first rows to an object of the second rows, when
`near` is the column of the end that they start at. -/
def linksAlong (links sources targets : TableId) (near far : String) (sameMatch : Bool) :
    WorkStep TableId := do
  let starting ← temporary (Store.join sources links [(Column.itemId, near)]
    [.left Column.subgraph Column.sourceMatch, .right Column.linkId Column.linkId,
      .right far Column.farObject])
  let on := (Column.farObject, Column.itemId) ::
    if sameMatch then [(Column.sourceMatch, Column.subgraph)] else []
  temporary (Store.join starting targets on
    [.left Column.sourceMatch Column.sourceMatch, .right Column.subgraph Column.targetMatch,
      .left Column.linkId Column.linkId])

/-- The links that match an edge and join an object of the first rows to an object of the second
ones, in either direction if the edge has none. -/
def linkMatches (edge : Item) (ends : EdgeEnds) (sources targets : TableId) (sameMatch : Bool) :
    WorkStep TableId := do
  let links ← temporary (Store.matchingLinks edge.condition)
  let forward ← linksAlong links sources targets Column.linkSource Column.linkTarget sameMatch
  if ends.directed then return forward
  let backward ← linksAlong links sources targets Column.linkTarget Column.linkSource sameMatch
  let both ← temporary (Store.union [forward, backward])
  temporary (Store.distinct both [Column.sourceMatch, Column.targetMatch, Column.linkId])

/-- The pairs of matches that are joined by a number of links within bounds. -/
def joinedPairs (found : TableId) (bounds : Annotation) : WorkStep TableId := do
  let counts ← temporary
    (Store.countBy found [Column.sourceMatch, Column.targetMatch] Column.count)
  let admitted ← temporary (Store.filter counts (bounds.rowFilter Column.count))
  temporary (Store.distinct admitted [Column.sourceMatch, Column.targetMatch])

end Workspace

end GraphPattern
