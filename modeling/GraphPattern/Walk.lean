import GraphPattern.Query.View

/-!
# Walking through a query

A walk enters a container, visits its members section by section and leaves it again. The
subqueries come between the vertices and the constraints, after the edges or before them. Every
visit knows the enclosing containers, the innermost first.
-/

namespace GraphPattern

/-- Which of edges and subqueries come first. -/
inductive WalkOrder where
  /-- The edges of a container before its subqueries. -/
  | edgesFirst
  /-- The subqueries of a container before its edges. -/
  | subqueriesFirst
deriving DecidableEq, Inhabited

/-- What a walk comes upon. -/
inductive WalkEvent where
  /-- A container begins. -/
  | enter (container : ContainerId)
  /-- A container ends. -/
  | leave (container : ContainerId)
  /-- A container has vertices, which follow. -/
  | vertices
  /-- A vertex. -/
  | vertex (vertex : ItemId)
  /-- A container has edges, which follow. -/
  | edges
  /-- An edge. -/
  | edge (edge : ItemId)
  /-- A container has constraints, which follow. -/
  | constraints
  /-- A constraint. -/
  | constraint (constraint : Constraint)
  /-- A request for derived links. -/
  | link (link : DerivedLink)
  /-- A cached item and the result container that holds its matches. -/
  | cached (item source : String)
deriving DecidableEq

namespace WalkEvent

/-- The name of what happens. -/
def name : WalkEvent → String
  | enter _ => "start"
  | leave _ => "end"
  | vertices => "vertices"
  | vertex _ => "vertex"
  | edges => "edges"
  | edge _ => "edge"
  | constraints => "constraints"
  | constraint _ => "constraint"
  | link _ => "link"
  | cached .. => "cached"

/-- The text of what it happens to, empty for the beginning of a section. -/
def text (q : Query) : WalkEvent → String
  | enter c | leave c => c.text
  | vertices | edges | constraints => ""
  | vertex i | edge i => (q.item? i).elim "" Item.joinedName
  | constraint c => c.text
  | link l => l.text
  | cached item source => s!"{item}@{source}"

end WalkEvent

/-- An event and where it happens. -/
structure Visit where
  /-- What the walk comes upon. -/
  event : WalkEvent
  /-- The enclosing containers, the innermost first. -/
  stack : List ContainerId
deriving DecidableEq

namespace Visit

/-- The innermost container. -/
def current (v : Visit) : ContainerId := v.stack.headD .root

/-- The number of enclosing subqueries. -/
def depth (v : Visit) : Nat := v.stack.length - 1

end Visit

namespace Query

/-- A section of members, announced by an event of its own unless it is empty. -/
def announced {α : Type} (heading : WalkEvent) (event : α → WalkEvent) (members : List α) :
    List WalkEvent :=
  if members.isEmpty then [] else heading :: members.map event

/-- The events between entering a container and its subqueries or edges. -/
def vertexEvents (c : Container) : List WalkEvent := announced .vertices .vertex c.vertices

/-- The events of the edges of a container. -/
def edgeEvents (c : Container) : List WalkEvent := announced .edges .edge c.edges

/-- The events of what a container declares. -/
def declarationEvents (c : Container) : List WalkEvent :=
  announced .constraints .constraint c.constraints ++ c.links.map .link ++
    c.cached.entries.map fun (item, source) => .cached item source

/-- The walk through a container inside the containers of `outer`, followed down to a given
depth. -/
def walkBelow (q : Query) (order : WalkOrder) : Nat → List ContainerId → ContainerId → List Visit
  | 0, _, _ => []
  | depth + 1, outer, c =>
    match q.container? c with
    | none => []
    | some container =>
      let stack := c :: outer
      let here := List.map fun event => (⟨event, stack⟩ : Visit)
      let inner := container.subqueries.flatMap (q.walkBelow order depth stack)
      let middle :=
        match order with
        | .edgesFirst => here (edgeEvents container) ++ inner
        | .subqueriesFirst => inner ++ here (edgeEvents container)
      here (.enter c :: vertexEvents container) ++ middle ++
        here (declarationEvents container ++ [.leave c])

/-- The walk through a whole query. -/
def walk (q : Query) (order : WalkOrder) : List Visit :=
  q.walkBelow order q.containers.next [] .root

end Query

end GraphPattern
