import GraphPattern.Description
import GraphPattern.Query.Edit

/-!
# From descriptions to queries

The vertices of all containers are added first, so that an edge can name a vertex of any
container. Edges follow, and then constraints, derived links and cached items. An end of an edge
that names no vertex stays open.
-/

namespace GraphPattern

mutual

/-- The condition, if all its tests are complete. -/
def Condition.checked : Condition → Except Error Condition
  | .all parts => return .all (← Condition.checkedAll parts)
  | .any parts => return .any (← Condition.checkedAll parts)
  | .negation part => return .negation (← part.checked)
  | .test t => Condition.ofTest t.operator t.attr t.value

/-- Several conditions, if all their tests are complete. -/
def Condition.checkedAll : List Condition → Except Error (List Condition)
  | [] => return []
  | part :: parts => return (← part.checked) :: (← Condition.checkedAll parts)

end

/-- The annotation, if its bounds are not inverted. -/
def Annotation.checked (a : Annotation) : Except Error Annotation := ofBounds a.min a.max

/-- A new item that carries a condition and an annotation. -/
def Item.checkedWith (item : Item) (condition : Option Condition)
    (bounds : Option Annotation) : Except Error Item := do
  let condition ← condition.mapM Condition.checked
  let bounds ← bounds.mapM Annotation.checked
  return { item with condition := condition, bounds := bounds }

/-- The vertex that an entry describes. -/
def VertexEntry.item (v : VertexEntry) : Except Error Item := do
  let item ← Item.newVertex v.name
  item.checkedWith v.condition v.bounds

/-- The edge that an entry describes. -/
def EdgeEntry.item (e : EdgeEntry) : Except Error Item := do
  let item ← Item.newEdge e.name e.source e.target e.directed
  item.checkedWith e.condition e.bounds

/-- The constraint that an entry describes. -/
def ConstraintEntry.constraint (c : ConstraintEntry) : Except Error Constraint := do
  let relation ← Constraint.ofOperands c.operator c.left c.right
  match c.annotatedItem, c.bounds with
  | some item, some bounds => relation.annotate item (← bounds.checked)
  | _, _ => return relation

namespace Description

/-- Add the vertices of a container. -/
def addVertices (container : ContainerId) (members : Members) : QueryEdit Unit :=
  members.vertices.forM fun entry => do
    let _ ← Query.addVertex container (← entry.item)

/-- Add the edges of a container. -/
def addEdges (container : ContainerId) (members : Members) : QueryEdit Unit :=
  members.edges.forM fun entry => do
    let _ ← Query.addEdge container (← entry.item)

/-- Add what a container declares about items that exist. -/
def addDeclarations (container : ContainerId) (members : Members) : QueryEdit Unit := do
  members.constraints.forM fun entry => do
    Query.addConstraint container (← entry.constraint)
  members.links.forM fun entry => do
    let link ← DerivedLink.ofNames entry.source entry.target entry.attr entry.value
    Query.addDerivedLink container link
  members.cached.forM fun entry => Query.addCachedItem container entry.item entry.container

/-- Add subqueries with their vertices below a container, each followed by those inside it, and
list the members of each by its number. -/
def addSubqueries (parent : ContainerId) :
    List SubqueryEntry → QueryEdit (List (ContainerId × Members))
  | [] => return []
  | .mk bounds members nested :: entries => do
    let checked : Except Error (Option Annotation) := bounds.mapM Annotation.checked
    let subquery ← Query.addSubquery parent (← checked)
    addVertices subquery members
    let inner ← addSubqueries subquery nested
    let others ← addSubqueries parent entries
    return (subquery, members) :: inner ++ others

/-- Add everything that is described to a query that has only its root. -/
def addAll (d : Description) : QueryEdit Unit := do
  addVertices .root d.members
  let containers := (.root, d.members) :: (← addSubqueries .root d.subqueries)
  containers.forM fun (container, members) => addEdges container members
  containers.forM fun (container, members) => addDeclarations container members

/-- The query that is described. -/
def build (d : Description) : Except Error Query :=
  match d.addAll.run (Query.bare d.name d.description) with
  | .ok _ q => .ok q
  | .error e _ => .error e

end Description

end GraphPattern
