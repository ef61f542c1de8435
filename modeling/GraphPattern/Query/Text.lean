import GraphPattern.Query.View

/-!
# The text of a query

One line for each kind of member of a container, deeper containers further to the right.
-/

namespace GraphPattern.Query

/-- The texts of live items in one line. -/
def itemList (q : Query) (items : List ItemId) : String :=
  ", ".intercalate ((items.filterMap q.item?).map Item.text)

/-- The lines of the members that a container holds itself. -/
def memberLines (q : Query) (c : Container) : List String :=
  (if c.vertices.isEmpty then [] else ["vertices: " ++ q.itemList c.vertices]) ++
    (if c.edges.isEmpty then [] else ["edges: " ++ q.itemList c.edges]) ++
    c.constraints.map (fun constraint => "constraint: " ++ constraint.text) ++
    c.links.map (fun link => "add-link: " ++ link.text) ++
    c.cached.entries.map fun (item, source) => s!"cached: {item} in '{source}'"

/-- The line that announces a subquery. -/
def subqueryLine (q : Query) (c : ContainerId) : String :=
  let bounds := (((q.container? c).bind Container.bounds).map Annotation.text).getD ""
  s!"subquery {c.text}{bounds}:"

/-- The lines of a container and of those below it, followed down to a given depth. -/
def linesBelow (q : Query) : Nat → ContainerId → List String
  | 0, _ => []
  | depth + 1, c =>
    match q.container? c with
    | none => []
    | some container =>
      (q.memberLines container ++ container.subqueries.flatMap fun sub =>
        q.subqueryLine sub :: q.linesBelow depth sub).map ("  " ++ ·)

/-- The text of a query. -/
def text (q : Query) : String :=
  let lines := s!"query '{q.name}'" :: q.linesBelow q.containers.next .root
  String.join (lines.map (· ++ "\n"))

end GraphPattern.Query
