import GraphPattern.Arena
import GraphPattern.Constraint
import GraphPattern.Item

/-!
# Queries

A query is a tree of containers, the root and its subqueries, that own vertices and edges and
declare constraints, derived links and cached items. Items and containers are numbered once and for
all: what is removed leaves an empty slot, so every number that survives an edit keeps its meaning,
in copies of the query as well.
-/

namespace GraphPattern

/-- Root or subquery. -/
inductive ContainerKind where
  /-- The root. -/
  | query
  /-- A subquery of another container. -/
  | subquery (parent : ContainerId) (bounds : Option Annotation)
deriving DecidableEq

/-- The members of the root or of a subquery, each list in the order of insertion. -/
structure Container where
  /-- Root or subquery. -/
  kind : ContainerKind
  /-- The vertices owned. -/
  vertices : List ItemId
  /-- The edges owned. -/
  edges : List ItemId
  /-- The subqueries directly inside. -/
  subqueries : List ContainerId
  /-- The constraints declared. -/
  constraints : List Constraint
  /-- The derived links declared. -/
  links : List DerivedLink
  /-- The items whose matches are already stored, with the names of the result containers. -/
  cached : OrderedMap String String
deriving DecidableEq

namespace Container

/-- A container without members. -/
def bare (kind : ContainerKind) : Container := ⟨kind, [], [], [], [], [], .empty⟩

/-- Whether the container is a subquery. -/
def isSubquery (c : Container) : Bool :=
  match c.kind with
  | .query => false
  | .subquery .. => true

/-- The enclosing container of a subquery. -/
def parent? (c : Container) : Option ContainerId :=
  match c.kind with
  | .query => none
  | .subquery parent _ => some parent

/-- The annotation of a subquery. -/
def bounds (c : Container) : Option Annotation :=
  match c.kind with
  | .query => none
  | .subquery _ bounds => bounds

/-- Whether the container owns neither items nor subqueries. -/
def isEmpty (c : Container) : Bool := c.vertices.isEmpty && c.edges.isEmpty && c.subqueries.isEmpty

/-- The container below another parent; the root stays the root. -/
def reparent (parent : ContainerId) (c : Container) : Container :=
  match c.kind with
  | .query => c
  | .subquery _ bounds => { c with kind := .subquery parent bounds }

end Container

/-- A graph pattern to be matched. -/
structure Query where
  /-- The name. -/
  name : String
  /-- The description, free text. -/
  description : String
  /-- The vertices and edges by number. -/
  items : Arena Item
  /-- The root and the subqueries by number. -/
  containers : Arena Container
deriving DecidableEq

namespace Query

/-- A query with nothing but its root. -/
def bare (name description : String) : Query :=
  ⟨name, description, .empty, Arena.empty.push (Container.bare .query)⟩

/-- The live item of a number. -/
def item? (q : Query) (i : ItemId) : Option Item := q.items.get? i.index

/-- The live container of a number. -/
def container? (q : Query) (c : ContainerId) : Option Container := q.containers.get? c.index

/-- The live item of a number, which must exist. -/
def item (q : Query) (i : ItemId) : Except Error Item :=
  match q.item? i with
  | some item => pure item
  | none => refuseState (.unknownItem i)

/-- The live container of a number, which must exist. -/
def container (q : Query) (c : ContainerId) : Except Error Container :=
  match q.container? c with
  | some container => pure container
  | none => refuseState (.unknownContainer c)

/-- Whether a number belongs to a live item. -/
def hasItem (q : Query) (i : ItemId) : Bool := (q.item? i).isSome

/-- The edges that end at a vertex, smallest number first. -/
def vertexEdges (q : Query) (i : ItemId) : Except Error (List ItemId) := do
  let item ← q.item i
  match item.edges? with
  | some edges => pure edges
  | none => refuseArgument (.notAVertex item.joinedName)

/-- The ends of an edge. -/
def edgeEnds (q : Query) (i : ItemId) : Except Error EdgeEnds := do
  let item ← q.item i
  match item.ends? with
  | some ends => pure ends
  | none => refuseArgument (.notAnEdge item.joinedName)

end Query

end GraphPattern
