import GraphPattern.Query.Basic

/-!
# Looking at a query

The container tree is listed depth first, a container before its subqueries and subqueries in the
order of insertion. All other lists follow that order.
-/

namespace GraphPattern

/-- How far a listing goes. -/
inductive Extent where
  /-- The members of the root alone. -/
  | root
  /-- The members of every container. -/
  | whole
deriving DecidableEq

namespace Query

/-- A container and those below it, followed down to a given depth. -/
def containersBelow (q : Query) : Nat → ContainerId → List ContainerId
  | 0, _ => []
  | depth + 1, c =>
    match q.container? c with
    | none => []
    | some container => c :: container.subqueries.flatMap (q.containersBelow depth)

/-- The root and every subquery. No container lies deeper than there are containers. -/
def containerIds (q : Query) : List ContainerId := q.containersBelow q.containers.next .root

/-- The numbers of the containers within an extent. -/
def containerIdsIn (q : Query) : Extent → List ContainerId
  | .root => [.root]
  | .whole => q.containerIds

/-- The containers within an extent. -/
def containersIn (q : Query) (extent : Extent) : List Container :=
  (q.containerIdsIn extent).filterMap q.container?

/-- The vertices within an extent. -/
def vertices (q : Query) (extent : Extent) : List ItemId :=
  (q.containersIn extent).flatMap Container.vertices

/-- The edges within an extent. -/
def edges (q : Query) (extent : Extent) : List ItemId :=
  (q.containersIn extent).flatMap Container.edges

/-- The vertices within an extent, then the edges. -/
def itemIds (q : Query) (extent : Extent) : List ItemId := q.vertices extent ++ q.edges extent

/-- The subqueries: those directly inside the root, or all of them. -/
def subqueries (q : Query) : Extent → List ContainerId
  | .root => (q.container? .root).elim [] Container.subqueries
  | .whole => q.containerIds.drop 1

/-- The constraints within an extent. -/
def constraints (q : Query) (extent : Extent) : List Constraint :=
  (q.containersIn extent).flatMap Container.constraints

/-- The derived links within an extent. -/
def derivedLinks (q : Query) (extent : Extent) : List DerivedLink :=
  (q.containersIn extent).flatMap Container.links

/-- The cached items within an extent; of two entries for one item the first listed counts. -/
def cachedItems (q : Query) (extent : Extent) : OrderedMap String String :=
  ((q.containersIn extent).flatMap fun c => c.cached.entries).foldl
    (fun m e => m.insertNew e.1 e.2) .empty

/-- Whether the live item of a number satisfies a predicate. -/
def itemSatisfies (q : Query) (p : Item → Bool) (i : ItemId) : Bool := (q.item? i).any p

/-- The item whose only name is the given one. -/
def itemNamed? (q : Query) (name : String) : Option ItemId :=
  (q.itemIds .whole).find? (q.itemSatisfies fun item => item.names = [name])

/-- The item that has the given name among its names. -/
def itemContaining? (q : Query) (name : String) : Option ItemId :=
  (q.itemIds .whole).find? (q.itemSatisfies fun item => item.hasName name)

/-- The vertex that has the given name among its names. -/
def vertexContaining? (q : Query) (name : String) : Option ItemId :=
  (q.vertices .whole).find? (q.itemSatisfies fun item => item.hasName name)

/-- The vertices joined to a vertex by an edge, each once and in the order of the edges. -/
def neighbors (q : Query) (vertex : ItemId) : Except Error (List ItemId) := do
  let edges ← q.vertexEdges vertex
  let ends ← edges.mapM q.edgeEnds
  let others := (ends.filterMap fun e => e.opposite? vertex).filter (· ≠ vertex)
  return others.eraseDups

/-- The edges between two vertices, in either direction. -/
def edgesBetween (q : Query) (a b : ItemId) : Except Error (List ItemId) := do
  let edges ← q.vertexEdges a
  edges.filterM fun edge => do
    let ends ← q.edgeEnds edge
    return ends.opposite? a = some b

/-- The self-loops of a vertex. -/
def selfLoops (q : Query) (vertex : ItemId) : Except Error (List ItemId) :=
  q.edgesBetween vertex vertex

/-- Whether an edge joins vertices of different containers. -/
def crossesBoundary (q : Query) (edge : ItemId) : Except Error Bool := do
  let ends ← q.edgeEnds edge
  match ends.both? with
  | none => return false
  | some (a, b) =>
    match q.item? a, q.item? b with
    | some a, some b => return a.container ≠ b.container
    | _, _ => return false

/-- Whether a vertex is owned by a container. -/
def liesIn (q : Query) (container : ContainerId) (vertex : ItemId) : Bool :=
  q.itemSatisfies (fun item => item.container = some container) vertex

/-- The edges with exactly one end in a subquery, whichever container owns them. -/
def boundaryEdges (q : Query) (subquery : ContainerId) : Except Error (List ItemId) := do
  let container ← q.container subquery
  if !container.isSubquery then refuseArgument .rootBoundary
  (q.edges .whole).filterM fun edge => do
    let ends ← q.edgeEnds edge
    match ends.both? with
    | none => return false
    | some (a, b) => return q.liesIn subquery a ≠ q.liesIn subquery b

/-- The vertices outside a subquery that a boundary edge joins to it, each once. -/
def anchorVertices (q : Query) (subquery : ContainerId) : Except Error (List ItemId) := do
  let edges ← q.boundaryEdges subquery
  let ends ← edges.mapM q.edgeEnds
  let anchors := (ends.filterMap EdgeEnds.both?).map fun (a, b) =>
    if q.liesIn subquery a then b else a
  return anchors.eraseDups

/-- Whether an item lies in a subquery. -/
def isInSubquery (q : Query) (i : ItemId) : Except Error Bool := do
  let item ← q.item i
  match item.container with
  | none => refuseState .itemWithoutContainer
  | some c => return (← q.container c).isSubquery

/-- Whether a query is reduced to one composite vertex that owes nothing: no annotation, no marker,
and no edge, subquery or constraint beside it. -/
def isConsolidated (q : Query) : Bool :=
  match q.container? .root with
  | none => false
  | some root =>
    match root.vertices with
    | [v] =>
      root.edges.isEmpty && root.subqueries.isEmpty && root.constraints.isEmpty &&
        q.itemSatisfies (fun item => item.isComposite && !item.isAnnotated && !item.isMarked) v
    | _ => false

end Query

end GraphPattern
