import GraphPattern.Forest
import GraphPattern.Group
import GraphPattern.Query.View

/-!
# Connected components

Vertices fall into parts that edges hold together. Every vertex starts as a tree of its own, and
every edge with two known ends joins the trees of its ends; the vertices of a tree are a part. Which
containers own the vertices and the edges makes no difference.
-/

namespace GraphPattern.Query

/-- The places of the ends of an edge among some vertices, if both ends are known and there. -/
def places? (q : Query) (vertices : List ItemId) (edge : ItemId) :
    Option (Fin vertices.length × Fin vertices.length) := do
  let ends ← (← q.item? edge).ends?
  let (a, b) ← ends.both?
  return (← vertices.finIdxOf? a, ← vertices.finIdxOf? b)

/-- The trees into which edges join some vertices, one edge after another. -/
def treesOf (q : Query) (vertices edges : List ItemId) : Forest vertices.length :=
  (Forest.single vertices.length).joinAll (edges.filterMap (q.places? vertices))

/-- The parts into which some vertices fall under some edges. They stand in the order of their
first vertices, and each lists its vertices in the order of their numbers. -/
def partsOf (q : Query) (vertices edges : List ItemId) : List (List ItemId) :=
  let roots := (q.treesOf vertices edges).roots (List.finRange vertices.length)
  (groups (roots.zip vertices)).map fun part => orderedSet part.2

/-- The parts of the whole query. -/
def components (q : Query) : List (List ItemId) := q.partsOf (q.vertices .whole) (q.edges .whole)

end GraphPattern.Query
