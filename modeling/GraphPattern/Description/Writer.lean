import GraphPattern.Description
import GraphPattern.Json

/-!
# Writing descriptions

A description is written as a JSON document. Lists, the free text and the direction of edges are
always written, and so are both bounds of an annotation; what is absent is left out.
-/

namespace GraphPattern.Description.Writer

/-- A member that is left out when it is absent. -/
def present {α : Type} (key : String) (write : α → Json) (value : Option α) :
    List (String × Json) :=
  value.toList.map fun a => (key, write a)

/-- Write a scalar. -/
def value : Value → Json
  | .null => .null
  | .bool b => .bool b
  | .int i => .int i
  | .float x => .float x
  | .string s => .string s

/-- Write an annotation. -/
def bounds (a : Annotation) : Json :=
  .object [("min", Json.optional Json.nat a.min), ("max", Json.optional Json.nat a.max)]

/-- Write a test. -/
def test (t : AttributeTest) : Json :=
  .object ([("operator", .string t.operator), ("attribute", .string t.attr)] ++
    present "value" value t.value)

mutual

/-- Write a condition. -/
def condition : Condition → Json
  | .all parts => .object [("and", .array (conditions parts))]
  | .any parts => .object [("or", .array (conditions parts))]
  | .negation part => .object [("not", condition part)]
  | .test t => .object [("test", test t)]

/-- Write several conditions. -/
def conditions : List Condition → List Json
  | [] => []
  | part :: parts => condition part :: conditions parts

end

/-- Write an operand. -/
def operand : Operand → Json
  | .item name attr => .object (("item", .string name) :: present "attribute" .string attr)
  | .literal v => value v

/-- Write a vertex. -/
def vertex (v : VertexEntry) : Json :=
  .object (("name", .string v.name) ::
    (present "condition" condition v.condition ++ present "annotation" bounds v.bounds))

/-- Write an edge. -/
def edge (e : EdgeEntry) : Json :=
  .object ([("name", .string e.name), ("from", .string e.source), ("to", .string e.target),
    ("directed", .bool e.directed)] ++
    (present "condition" condition e.condition ++ present "annotation" bounds e.bounds))

/-- Write a constraint. -/
def constraint (c : ConstraintEntry) : Json :=
  .object ([("operator", .string c.operator), ("left", operand c.left),
    ("right", operand c.right)] ++
    (present "annotated_item" .string c.annotatedItem ++
      present "annotation" bounds c.bounds))

/-- Write a request for derived links. -/
def link (l : DerivedLink) : Json :=
  .object [("from", .string l.source), ("to", .string l.target), ("attribute", .string l.attr),
    ("value", .string l.value)]

/-- Write a cached item. -/
def cached (c : CachedEntry) : Json :=
  .object [("item", .string c.item), ("container", .string c.container)]

/-- Write the members of a container, given its subqueries as written. -/
def members (m : Members) (subqueries : List Json) : List (String × Json) :=
  [("vertices", Json.list vertex m.vertices), ("edges", Json.list edge m.edges),
    ("subqueries", .array subqueries), ("constraints", Json.list constraint m.constraints),
    ("add_links", Json.list link m.links), ("cached", Json.list cached m.cached)]

mutual

/-- Write a subquery. -/
def subquery : SubqueryEntry → Json
  | .mk limits parts nested =>
    .object (present "annotation" bounds limits ++ members parts (subqueries nested))

/-- Write several subqueries. -/
def subqueries : List SubqueryEntry → List Json
  | [] => []
  | entry :: entries => subquery entry :: subqueries entries

end

/-- Write a description. -/
def toJson (d : Description) : Json :=
  .object ([("name", .string d.name), ("description", .string d.description)] ++
    members d.members (subqueries d.subqueries))

end GraphPattern.Description.Writer
