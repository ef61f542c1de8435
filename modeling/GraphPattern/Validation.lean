import GraphPattern.Query.Component
import GraphPattern.Query.Edit
import GraphPattern.Walk

/-!
# Validation

The rules that a query has to keep before it is planned. Every breach is listed: first those that
are found on a walk through the query, then repeated names, and last whether the query hangs
together once everything that may be absent is taken out of a copy.
-/

namespace GraphPattern

/-- A breach of a rule. -/
inductive Violation where
  /-- A container owns no vertex. -/
  | noVertices (inSubquery : Bool)
  /-- A subquery lies inside a subquery. -/
  | nestedSubquery
  /-- An annotated vertex is joined to an annotated subquery from outside. -/
  | annotatedAnchor (vertex : String)
  /-- An annotated vertex of a subquery is joined to a vertex outside. -/
  | annotatedBoundary (vertex : String)
  /-- An item has a name without characters. -/
  | emptyName
  /-- The operator of a test is not known. -/
  | unknownOperator (operator : String)
  /-- A test for presence has a constant. -/
  | presenceWithValue
  /-- A comparing test has no constant. -/
  | missingValue (operator : String)
  /-- An edge at an annotated vertex is not annotated; found at the vertex. -/
  | plainEdgeOfVertex (vertex edge : String)
  /-- An end of an edge is open. -/
  | openEnds (source : String) (sourceKnown : Bool) (target : String) (targetKnown : Bool)
  /-- Both ends of an edge are annotated. -/
  | bothEndsAnnotated (source target : String)
  /-- An edge joins two annotated subqueries. -/
  | joinsAnnotatedSubqueries (edge : String)
  /-- An edge at an annotated vertex is not annotated; found at the edge. -/
  | plainEdgeAtAnnotated (edge : String)
  /-- An edge between two containers is not annotated. -/
  | plainCrossingEdge (edge : String)
  /-- An edge lies in the container of neither of its ends. -/
  | strayEdge (edge : String)
  /-- An edge may be absent. -/
  | negatedEdge (edge : String)
  /-- The operator of a constraint does not relate two operands. -/
  | constraintOperator (operator : String)
  /-- A constraint compares an attribute with an identity. -/
  | mixedOperands (left right : String)
  /-- A constraint names an item that does not exist. -/
  | unknownConstraintItem (item : String)
  /-- A constraint relates a vertex and an edge. -/
  | mixedItems (left right : String)
  /-- Both items of a constraint are annotated. -/
  | bothItemsAnnotated (left : String)
  /-- One item of a constraint is annotated and the other one is in an annotated subquery. -/
  | annotatedAndSubquery (annotated other : String)
  /-- A constraint between containers is about an annotated edge neither of whose ends may be
  absent. -/
  | edgeWithoutNegatedEnd (left right : String)
  /-- A constraint between containers is about no item that may be absent. -/
  | spanWithoutNegated (left right : String)
  /-- A derived link names a vertex that does not exist. -/
  | unknownLinkVertex (vertex : String)
  /-- A cached item does not exist. -/
  | unknownCachedItem (item : String)
  /-- Names occur more than once. -/
  | repeatedNames (names : List String)
  /-- The query falls apart. -/
  | disconnected
  /-- What may be absent could not be taken out. -/
  | notPruned (error : String)
deriving DecidableEq

namespace Violation

/-- Whether an end of an edge is fine. -/
def endText (known : Bool) : String := if known then "ok" else "bad"

/-- The text of a violation. -/
def message : Violation → String
  | noVertices inSubquery =>
    (if inSubquery then "subquery" else "query") ++
      " has zero vertices, but should have at least one"
  | nestedSubquery =>
    "found a subquery whose parent was itself a subquery (nested subqueries not supported)"
  | annotatedAnchor vertex =>
    s!"no numeric annotation allowed on a vertex adjacent to an annotated subquery: {vertex}"
  | annotatedBoundary vertex =>
    s!"no annotation allowed on boundary vertex of subquery: {vertex}"
  | emptyName => "vertex or edge name cannot be empty"
  | unknownOperator operator =>
    s!"operator wasn't one of: 'eq', 'ge', 'gt', 'le', 'lt', 'ne', or 'exists': {operator}"
  | presenceWithValue => "exists operator takes a single operand"
  | missingValue operator => s!"{operator} operator requires two operands"
  | plainEdgeOfVertex vertex edge =>
    "annotated vertices require all incident edges to be annotated. " ++
      s!"Vertex: {vertex} Edge: {edge}"
  | openEnds source sourceKnown target targetKnown =>
    s!"one or both edge vertices are invalid. Vertex 1: {source} ({endText sourceKnown}), " ++
      s!"Vertex 2: {target} ({endText targetKnown})"
  | bothEndsAnnotated source target =>
    "at most one of any two adjacent vertices can be annotated. " ++
      s!"Vertex 1: {source}, Vertex 2: {target}"
  | joinsAnnotatedSubqueries edge =>
    s!"no edge can connect one annotated subquery to another: {edge}"
  | plainEdgeAtAnnotated edge => s!"edge incident to an annotated vertex must be annotated: {edge}"
  | plainCrossingEdge edge => s!"edge crossing a subquery boundary must be annotated: {edge}"
  | strayEdge edge =>
    "at least one of every edge's vertices is in the same parent query/subquery as the edge " ++
      s!"itself. Edge: {edge}"
  | negatedEdge edge => s!"edge min numeric annotation cannot be 0. Edge: {edge}"
  | constraintOperator operator =>
    s!"constraint operator wasn't one of: 'eq', 'ge', 'gt', 'le', 'lt', 'ne': {operator}"
  | mixedOperands left right =>
    s!"constraint had inconsistent operands: {left}, {right}. " ++
      "operands should be consistent with each other: two items, or two attributes"
  | unknownConstraintItem item => s!"constraint: unknown item: {item}"
  | mixedItems left right =>
    s!"constraint: inconsistent operands: {left}, {right}. " ++
      "constraints should only relate pairs of vertices or pairs of edges, with no mixing"
  | bothItemsAnnotated left =>
    s!"constraint: only one item in the constraint can be annotated: {left}"
  | annotatedAndSubquery annotated other =>
    s!"constraint: only one item in the constraint can be annotated: {annotated} is annotated, " ++
      s!"and {other} is in an annotated sub-query"
  | edgeWithoutNegatedEnd left right =>
    "constraint: In a constraint involving an annotated link, at least one of the end vertices " ++
      s!"has to be annotated with [0..]: {left}, {right}"
  | spanWithoutNegated left right =>
    "constraint: In a constraint that spans multiple sub-queries, one of the items has to be " ++
      s!"annotated with [0..]: {left}, {right}"
  | unknownLinkVertex vertex => s!"add-link for non-existing vertex: {vertex}"
  | unknownCachedItem item => s!"cache for non-existing element: {item}"
  | repeatedNames names =>
    s!"found {names.length} duplicate item name(s): " ++ Text.quotedList names
  | disconnected => "query (without negated elements) is not connected"
  | notPruned error => s!"internal error copying query: {error}"

/-- The message that stands for several violations: that of the first one up to its first colon. -/
def primary : List Violation → String
  | [] => ""
  | violation :: _ => String.ofList (violation.message.toList.takeWhile (· ≠ ':'))

end Violation

namespace Query

/-- Breaches in a test. -/
def testViolations (t : AttributeTest) : List Violation :=
  match t.comparison?, t.value with
  | none, _ => [.unknownOperator t.operator]
  | some .present, some _ => [.presenceWithValue]
  | some .present, none => []
  | some _, none => [.missingValue t.operator]
  | some _, some _ => []

/-- Breaches in the names and in the condition of an item. -/
def itemViolations (item : Item) : List Violation :=
  (if item.hasName "" then [.emptyName] else []) ++
    (item.condition.elim [] Condition.tests).flatMap testViolations

/-- Edges without annotation at an annotated vertex. -/
def vertexViolations (q : Query) (vertex : Item) : List Violation :=
  if vertex.isAnnotated then
    let edges := ((vertex.edges?.getD []).filterMap q.item?).filter fun edge => !edge.isAnnotated
    edges.map fun edge => .plainEdgeOfVertex vertex.firstName edge.firstName
  else []

/-- Whether an item lies in an annotated subquery. -/
def inAnnotatedSubquery (q : Query) (item : Item) : Bool :=
  (item.container.bind q.container?).any fun c => c.bounds.isSome

/-- Whether the ends of an edge lie in different containers. -/
def crosses (q : Query) (edge : ItemId) : Bool :=
  match q.crossesBoundary edge with
  | .ok crosses => crosses
  | .error _ => false

/-- Breaches at an edge with two known ends. -/
def joinViolations (q : Query) (id : ItemId) (edge source target : Item) : List Violation :=
  let touchesAnnotated := source.isAnnotated || target.isAnnotated
  let crossing := q.crosses id
  let breach := fun (broken : Bool) (violation : Violation) => if broken then [violation] else []
  breach (source.isAnnotated && target.isAnnotated)
      (.bothEndsAnnotated source.firstName target.firstName) ++
    breach (crossing && q.inAnnotatedSubquery source && q.inAnnotatedSubquery target)
      (.joinsAnnotatedSubqueries edge.firstName) ++
    breach (touchesAnnotated && !edge.isAnnotated) (.plainEdgeAtAnnotated edge.firstName) ++
    breach (crossing && !edge.isAnnotated) (.plainCrossingEdge edge.firstName) ++
    breach (edge.container ≠ source.container && edge.container ≠ target.container)
      (.strayEdge edge.firstName) ++
    breach edge.isNegated (.negatedEdge edge.firstName)

/-- Breaches at an edge. -/
def edgeViolations (q : Query) (id : ItemId) (edge : Item) : List Violation :=
  match edge.ends? with
  | none => []
  | some ends =>
    match ends.source.bind q.item?, ends.target.bind q.item? with
    | some source, some target => q.joinViolations id edge source target
    | source, target => [.openEnds ends.sourceName source.isSome ends.targetName target.isSome]

/-- The ends inside a subquery of its boundary edges, each once. -/
def innerVertices (q : Query) (edges anchors : List ItemId) : List ItemId :=
  let ends := (edges.filterMap fun e => (q.item? e).bind Item.ends?).filterMap EdgeEnds.both?
  (ends.map fun (a, b) => if a ∈ anchors then b else a).eraseDups

/-- The first names of the annotated items among some. -/
def annotatedNames (q : Query) (items : List ItemId) : List String :=
  ((items.filterMap q.item?).filter Item.isAnnotated).map Item.firstName

/-- Annotated vertices at the boundary of a subquery. -/
def boundaryViolations (q : Query) (id : ContainerId) (subquery : Container) : List Violation :=
  match q.boundaryEdges id, q.anchorVertices id with
  | .ok edges, .ok anchors =>
    (if subquery.bounds.isSome then (q.annotatedNames anchors).map .annotatedAnchor else []) ++
      (q.annotatedNames (q.innerVertices edges anchors)).map .annotatedBoundary
  | _, _ => []

/-- Breaches at the beginning of a container. -/
def containerViolations (q : Query) (id : ContainerId) (c : Container) : List Violation :=
  (if c.vertices.isEmpty then [.noVertices c.isSubquery] else []) ++
    (if (c.parent?.bind q.container?).any Container.isSubquery then [.nestedSubquery] else []) ++
    if c.isSubquery then q.boundaryViolations id c else []

/-- Breaches in a constraint between two annotated or unannotated items of different containers. -/
def spanViolations (q : Query) (left right : String × Item) : List Violation :=
  match [left.2, right.2].find? Item.isAnnotated with
  | none => [.spanWithoutNegated left.1 right.1]
  | some annotated =>
    match annotated.ends? with
    | some ends =>
      let vertices := [ends.source, ends.target].reduceOption.filterMap q.item?
      if (vertices.find? Item.isAnnotated).any Item.isNegated then []
      else [.edgeWithoutNegatedEnd left.1 right.1]
    | none => if annotated.isNegated then [] else [.spanWithoutNegated left.1 right.1]

/-- Breaches in a constraint between two items. -/
def pairViolations (q : Query) (left right : String × Item) : List Violation :=
  let breach := fun (broken : Bool) (violation : Violation) => if broken then [violation] else []
  breach (left.2.isEdge ≠ right.2.isEdge) (.mixedItems left.1 right.1) ++
    breach (left.2.isAnnotated && right.2.isAnnotated) (.bothItemsAnnotated left.1) ++
    breach (left.2.isAnnotated && q.inAnnotatedSubquery right.2)
      (.annotatedAndSubquery left.1 right.1) ++
    breach (right.2.isAnnotated && q.inAnnotatedSubquery left.2)
      (.annotatedAndSubquery right.1 left.1) ++
    if left.2.container = right.2.container then [] else q.spanViolations left right

/-- The live item whose only name is the given one. -/
def namedItem? (q : Query) (name : String) : Option Item := (q.itemNamed? name).bind q.item?

/-- Breaches in a constraint. -/
def constraintViolations (q : Query) (c : Constraint) : List Violation :=
  let operator :=
    if (Comparison.ofKeyword? c.operator).any Comparison.isBinary then []
    else [Violation.constraintOperator c.operator]
  let operands :=
    if c.hasMixedOperands then [Violation.mixedOperands c.left.text c.right.text] else []
  let unknown := c.itemNames.filter fun name => (q.namedItem? name).isNone
  let pair :=
    match c.itemNames.map fun name => (q.namedItem? name).map (name, ·) with
    | [some left, some right] => q.pairViolations left right
    | _ => []
  operator ++ operands ++ unknown.map .unknownConstraintItem ++ pair

/-- The names among some that no item has as its only one. -/
def unknownNames (q : Query) (names : List String) : List String :=
  names.filter fun name => (q.itemNamed? name).isNone

/-- Breaches that a visit of a walk shows. -/
def visitViolations (q : Query) : WalkEvent → List Violation
  | .enter c => (q.container? c).elim [] (q.containerViolations c)
  | .vertex v => (q.item? v).elim [] fun item => itemViolations item ++ q.vertexViolations item
  | .edge e => (q.item? e).elim [] fun item => itemViolations item ++ q.edgeViolations e item
  | .constraint c => q.constraintViolations c
  | .link l => (q.unknownNames [l.source, l.target]).map .unknownLinkVertex
  | .cached item _ => (q.unknownNames [item]).map .unknownCachedItem
  | .leave _ | .vertices | .edges | .constraints => []

/-- The elements of a list that also stand earlier in it. -/
def repeated (seen : List String) : List String → List String
  | [] => []
  | name :: names =>
    if name ∈ seen then name :: repeated seen names else repeated (name :: seen) names

/-- Names that more than one item has. -/
def nameViolations (q : Query) : List Violation :=
  match repeated [] (((q.itemIds .whole).filterMap q.item?).flatMap Item.names) with
  | [] => []
  | names => [.repeatedNames names]

/-- Whether one of some containers may be absent. -/
def anyNegated (q : Query) (containers : List ContainerId) : Bool :=
  containers.any fun c => ((q.container? c).bind Container.bounds).any Annotation.isNegated

/-- Whether an item may be absent, by itself or with a container around it. -/
def mayBeAbsent (q : Query) (stack : List ContainerId) (i : ItemId) : Bool :=
  q.anyNegated stack || q.itemSatisfies Item.isNegated i

/-- What may be absent from a query. -/
structure Negated where
  /-- The subqueries, each before those inside it. -/
  subqueries : List ContainerId
  /-- The vertices. -/
  vertices : List ItemId
  /-- The edges. -/
  edges : List ItemId

/-- What a walk comes upon that may be absent. -/
def negated (q : Query) : Negated :=
  let visits := q.walk .edgesFirst
  { subqueries := visits.filterMap fun visit =>
      match visit.event with
      | .enter c => if c ≠ .root ∧ q.anyNegated visit.stack = true then some c else none
      | _ => none
    vertices := visits.filterMap fun visit =>
      match visit.event with
      | .vertex v => if q.mayBeAbsent visit.stack v then some v else none
      | _ => none
    edges := visits.filterMap fun visit =>
      match visit.event with
      | .edge e => if q.mayBeAbsent visit.stack e then some e else none
      | _ => none }

/-- Take some elements out of a query: the edges and those at the vertices, then the vertices, then
the subqueries from the inside out. -/
def removeNegated (n : Negated) : QueryEdit Unit := do
  let q ← get
  let incident ← (n.vertices.mapM q.vertexEdges : Except Error (List (List ItemId)))
  (orderedSet (n.edges ++ incident.flatten)).forM fun e => do
    let _ ← removeEdge e
  n.vertices.forM fun v => do
    let _ ← removeVertex v
  n.subqueries.reverse.forM fun c => do
    let _ ← removeSubquery c

/-- The query without what may be absent. -/
def withoutNegated (q : Query) : Except Error Query :=
  match (removeNegated q.negated).run q with
  | .ok _ pruned => .ok pruned
  | .error e _ => .error e

/-- What is wrong with the query once what may be absent is taken out. -/
def connectionViolations (q : Query) : List Violation :=
  match q.withoutNegated with
  | .ok pruned => if pruned.components.length = 1 then [] else [.disconnected]
  | .error e => [.notPruned e.message]

/-- Everything that keeps a query from being planned. -/
def violations (q : Query) : List Violation :=
  ((q.walk .edgesFirst).flatMap fun visit => q.visitViolations visit.event) ++ q.nameViolations ++
    q.connectionViolations

/-- Whether a query keeps all rules. -/
def isValid (q : Query) : Bool := q.violations.isEmpty

end Query

end GraphPattern
