import GraphPattern.Description
import GraphPattern.Json.Reader

/-!
# Reading descriptions

A description is read from a JSON document. Unknown keys are ignored, a known key must not be
repeated, and null stands for an absent member only where the member may be absent. Entries that
hold no subqueries may also be written as lists of their members in order.
-/

namespace GraphPattern.Description.Reader

/-- The members of an object or a list entry by key. -/
abbrev Fields := List (String × Json)

/-- Whether no known key is repeated. -/
def knownOnce (keys : List String) (fields : Fields) : Bool :=
  keys.all fun key => fields.countP (fun field => field.1 = key) ≤ 1

/-- The value of a key. -/
def lookup? (key : String) : Fields → Option Json
  | [] => none
  | field :: fields => if field.1 = key then some field.2 else lookup? key fields

/-- The members of an entry with the given keys, which is an object or a list of values. -/
def entry? (keys : List String) : Json → Option Fields
  | .object fields => if knownOnce keys fields then some fields else none
  | .array values => if values.length ≤ keys.length then some (keys.zip values) else none
  | _ => none

/-- A member that must be there. -/
def required? {α : Type} (fields : Fields) (key : String) (read : Json → Option α) : Option α :=
  (lookup? key fields).bind read

/-- A member that has a value of its own when it is not there. -/
def defaulted? {α : Type} (fields : Fields) (key : String) (absent : α) (read : Json → Option α) :
    Option α :=
  (lookup? key fields).elim (some absent) read

/-- A member that may be absent or null. -/
def optional? {α : Type} (fields : Fields) (key : String) (read : Json → Option α) :
    Option (Option α) :=
  match lookup? key fields with
  | none => some none
  | some .null => some none
  | some value => (read value).map some

/-- Read every element of a list. -/
def listOf? {α : Type} (read : Json → Option α) : Json → Option (List α)
  | .array values => values.mapM read
  | _ => none

/-- Read a scalar. Integers beyond 64 bits with a sign become floating-point numbers. -/
def value? : Json → Option Value
  | .null => some .null
  | .bool b => some (.bool b)
  | .int i => some (if isInt64 i then .int i else .float (Binary64.ofInt i))
  | .float x => some (.float x)
  | .string s => some (.string s)
  | _ => none

/-- Read a bound: a natural number of 32 bits. -/
def bound? (j : Json) : Option Nat := j.nat?.filter (· < 0x100000000)

/-- Read an annotation. -/
def annotation? (j : Json) : Option Annotation := do
  let fields ← entry? ["min", "max"] j
  let min ← optional? fields "min" bound?
  let max ← optional? fields "max" bound?
  return ⟨min, max⟩

/-- Read a test. -/
def test? (j : Json) : Option AttributeTest := do
  let fields ← entry? ["operator", "attribute", "value"] j
  let operator ← required? fields "operator" Json.string?
  let attr ← required? fields "attribute" Json.string?
  let value ← optional? fields "value" value?
  return ⟨operator, attr, value⟩

mutual

/-- Read a condition, an object with one member. -/
def condition? : Json → Option Condition
  | .object [("and", .array parts)] => (conditions? parts).map .all
  | .object [("or", .array parts)] => (conditions? parts).map .any
  | .object [("not", part)] => (condition? part).map .negation
  | .object [("test", body)] => (test? body).map .test
  | _ => none

/-- Read several conditions. -/
def conditions? : List Json → Option (List Condition)
  | [] => some []
  | part :: parts => do
    let first ← condition? part
    let rest ← conditions? parts
    return first :: rest

end

/-- Read an operand: an object that names an item, or a constant. -/
def operand? : Json → Option Operand
  | .object fields => do
    guard (knownOnce ["item", "attribute"] fields)
    let name ← required? fields "item" Json.string?
    let attr ← optional? fields "attribute" Json.string?
    return .item name attr
  | j => (value? j).map .literal

/-- Read a vertex. -/
def vertex? (j : Json) : Option VertexEntry := do
  let fields ← entry? ["name", "condition", "annotation"] j
  let name ← required? fields "name" Json.string?
  let condition ← optional? fields "condition" condition?
  let bounds ← optional? fields "annotation" annotation?
  return ⟨name, condition, bounds⟩

/-- Read an edge. -/
def edge? (j : Json) : Option EdgeEntry := do
  let fields ← entry? ["name", "from", "to", "directed", "condition", "annotation"] j
  let name ← required? fields "name" Json.string?
  let source ← required? fields "from" Json.string?
  let target ← required? fields "to" Json.string?
  let directed ← defaulted? fields "directed" false Json.bool?
  let condition ← optional? fields "condition" condition?
  let bounds ← optional? fields "annotation" annotation?
  return ⟨name, source, target, directed, condition, bounds⟩

/-- Read a constraint. -/
def constraint? (j : Json) : Option ConstraintEntry := do
  let fields ← entry? ["operator", "left", "right", "annotated_item", "annotation"] j
  let operator ← required? fields "operator" Json.string?
  let left ← required? fields "left" operand?
  let right ← required? fields "right" operand?
  let annotatedItem ← optional? fields "annotated_item" Json.string?
  let bounds ← optional? fields "annotation" annotation?
  return ⟨operator, left, right, annotatedItem, bounds⟩

/-- Read a request for derived links. -/
def link? (j : Json) : Option DerivedLink := do
  let fields ← entry? ["from", "to", "attribute", "value"] j
  let source ← required? fields "from" Json.string?
  let target ← required? fields "to" Json.string?
  let attr ← required? fields "attribute" Json.string?
  let value ← required? fields "value" Json.string?
  return ⟨source, target, attr, value⟩

/-- Read a cached item. -/
def cached? (j : Json) : Option CachedEntry := do
  let fields ← entry? ["item", "container"] j
  let item ← required? fields "item" Json.string?
  let container ← required? fields "container" Json.string?
  return ⟨item, container⟩

/-- The keys of the members of a container. -/
def memberKeys : List String :=
  ["vertices", "edges", "subqueries", "constraints", "add_links", "cached"]

/-- Read the members of a container, apart from the subqueries. -/
def members? (fields : Fields) : Option Members := do
  let vertices ← defaulted? fields "vertices" [] (listOf? vertex?)
  let edges ← defaulted? fields "edges" [] (listOf? edge?)
  let constraints ← defaulted? fields "constraints" [] (listOf? constraint?)
  let links ← defaulted? fields "add_links" [] (listOf? link?)
  let cached ← defaulted? fields "cached" [] (listOf? cached?)
  return ⟨vertices, edges, constraints, links, cached⟩

mutual

/-- Read a subquery. -/
def subquery? : Json → Option SubqueryEntry
  | .object fields => do
    guard (knownOnce ("annotation" :: memberKeys) fields)
    let bounds ← optional? fields "annotation" annotation?
    let members ← members? fields
    let nested ← nested? fields
    return .mk bounds members nested
  | _ => none

/-- Read the subqueries among the members of a container. -/
def nested? : List (String × Json) → Option (List SubqueryEntry)
  | [] => some []
  | (key, value) :: fields =>
    if key = "subqueries" then
      match value with
      | .array entries => subqueries? entries
      | _ => none
    else nested? fields

/-- Read several subqueries. -/
def subqueries? : List Json → Option (List SubqueryEntry)
  | [] => some []
  | entry :: entries => do
    let first ← subquery? entry
    let rest ← subqueries? entries
    return first :: rest

end

/-- Read a description from a document. -/
def ofJson? : Json → Option Description
  | .object fields => do
    guard (knownOnce ("name" :: "description" :: memberKeys) fields)
    let name ← required? fields "name" Json.string?
    let description ← defaulted? fields "description" "" Json.string?
    let members ← members? fields
    let subqueries ← nested? fields
    return ⟨name, description, members, subqueries⟩
  | _ => none

/-- Read a description from a text. -/
def ofText? (text : String) : Option Description := (Json.Reader.read? text).bind ofJson?

end GraphPattern.Description.Reader
