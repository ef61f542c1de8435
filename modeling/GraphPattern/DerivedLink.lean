import GraphPattern.Constraint
import GraphPattern.Store.Container
import GraphPattern.Workspace

/-!
# Making derived links

For every request, each object of the first vertex is linked to each object of the second vertex in
the same match. A pair that occurs in several matches gets one link.
-/

namespace GraphPattern.Workspace

/-- The pairs of objects that a request is about, each once, in the columns that new links are made
from. -/
def linkedPairs (container : String) (request : DerivedLink) : WorkStep TableId := do
  let (sources, sourceLinks) ← Store.itemTables container [request.source]
  let _ ← trackPair ⟨sources, sourceLinks⟩
  let (targets, targetLinks) ← Store.itemTables container [request.target]
  let _ ← trackPair ⟨targets, targetLinks⟩
  let pairs ← temporary (Store.join sources targets [(Column.subgraph, Column.subgraph)]
    [.left Column.itemId Column.newSource, .right Column.itemId Column.newTarget])
  temporary (Store.distinct pairs [Column.newSource, Column.newTarget])

/-- Make the links of one request and return their number. -/
def deriveLinks (container : String) (request : DerivedLink) : WorkStep Nat :=
  withScratch do
    let pairs ← linkedPairs container request
    Store.addConstant pairs (Column.newAttribute ++ request.attr) (.infer request.value)
    let created ← Store.createLinks pairs
    Store.commit
    return created

/-- Make the links of several requests one after another and return their number. -/
def deriveAllLinks (container : String) (requests : List DerivedLink) : WorkStep Nat := do
  let numbers ← requests.mapM (deriveLinks container)
  return numbers.foldr (· + ·) 0

end GraphPattern.Workspace
