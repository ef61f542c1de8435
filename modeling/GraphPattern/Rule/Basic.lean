import GraphPattern.Query.Edit
import GraphPattern.Workspace

/-!
# Rules

A rule reduces the part of a query around a vertex. It lists the ways in which it applies, reduces
a query in one of these ways, and later replays the same reduction on the tables of a workspace. A
search needs the first two, a run of a plan the third.
-/

namespace GraphPattern

/-- A way in which a rule applies to a query. -/
structure Application where
  /-- The items that take part, the vertex first. -/
  items : List ItemId
  /-- Their joined names. -/
  names : List String
  /-- The constraint that is settled. -/
  constraint : Option Constraint
deriving DecidableEq

namespace Application

/-- An application to items of a query. -/
def ofItems (q : Query) (items : List ItemId) : Except Error Application := do
  let names ← items.mapM fun i => return (← q.item i).joinedName
  return ⟨items, names, none⟩

/-- The application that settles a constraint. -/
def withConstraint (a : Application) (constraint : Constraint) : Application :=
  { a with constraint := some constraint }

/-- The text of an application: the names of its items, then the constraint that is settled. -/
def text (a : Application) : String :=
  let names := "|".intercalate a.names
  match a.constraint with
  | some constraint => names ++ "|" ++ constraint.text
  | none => names

/-- The item at a position, which must exist. -/
def item (a : Application) (position : Nat) : Except Error ItemId :=
  match a.items[position]? with
  | some i => pure i
  | none => refuseArgument (.missingApplicationItem a.text position)

/-- The constraint that is settled, which must exist. -/
def settled (a : Application) : Except Error Constraint :=
  match a.constraint with
  | some constraint => pure constraint
  | none => refuseArgument .missingApplicationConstraint

end Application

/-- A query after a reduction. -/
structure Reduced where
  /-- The query. -/
  query : Query
  /-- The vertex that now stands for the reduced part. -/
  output : ItemId
deriving DecidableEq

/-- What remains known of a reduction when the numbers of items no longer count. -/
structure ResultVertex where
  /-- The joined names of the vertex that stands for the reduced part. -/
  joinedName : String
  /-- Its names. -/
  names : List String
deriving DecidableEq

namespace Reduced

/-- The names of the vertex that stands for the reduced part. -/
def result (r : Reduced) : Except Error ResultVertex := do
  let item ← r.query.item r.output
  return ⟨item.joinedName, item.names⟩

/-- The outcome of editing a query, where the edit answers with the vertex that stands for the
reduced part. -/
def ofEdit (q : Query) (edit : QueryEdit ItemId) : Except Error Reduced :=
  match edit.run q with
  | .ok output query => .ok ⟨query, output⟩
  | .error e _ => .error e

end Reduced

/-- A reduction that is to be replayed. -/
structure Replay where
  /-- The query before the reduction. -/
  before : Query
  /-- The way in which the rule applied. -/
  application : Application
  /-- What the reduction led to. -/
  result : ResultVertex

/-- A way to reduce queries. -/
structure Rule where
  /-- The name. -/
  name : String
  /-- The ways in which the rule applies at a vertex. -/
  applications : Query → ItemId → Except Error (List Application)
  /-- Reduce a query. -/
  apply : Query → Application → Except Error Reduced
  /-- Replay a reduction, and answer with the entry of the registry that was written. -/
  replay : Replay → WorkStep (Option String)

namespace Rule

/-- Whether a rule may start from a vertex: a composite one that is neither annotated nor marked. -/
def isSettled (item : Item) : Bool := item.isComposite && !item.isAnnotated && !item.isMarked

/-- The items of an edge that a rule needs to be an edge. -/
def replayedEdge (r : Replay) (position : Nat) : Except Error (Item × EdgeEnds) := do
  let edge ← r.before.item (← r.application.item position)
  match edge.ends? with
  | some ends => return (edge, ends)
  | none => refuseState (.stepNeedsEdge edge.joinedName)

end Rule

end GraphPattern
