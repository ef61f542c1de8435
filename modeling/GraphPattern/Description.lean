import GraphPattern.Constraint

/-!
# Query descriptions

A description is what a user writes down: the members of the root and of every subquery, in lists.
Its parts are data as read. Whether they can make up a query is decided when the query is built.
-/

namespace GraphPattern

/-- A vertex as described. -/
structure VertexEntry where
  /-- The name. -/
  name : String
  /-- The filter on objects. -/
  condition : Option Condition
  /-- The bounds on the number of matches. -/
  bounds : Option Annotation
deriving DecidableEq

/-- An edge as described. -/
structure EdgeEntry where
  /-- The name. -/
  name : String
  /-- The name of the vertex at the first end. -/
  source : String
  /-- The name of the vertex at the second end. -/
  target : String
  /-- Whether the direction of a link matters. -/
  directed : Bool
  /-- The filter on links. -/
  condition : Option Condition
  /-- The bounds on the number of matches. -/
  bounds : Option Annotation
deriving DecidableEq

/-- A constraint as described. -/
structure ConstraintEntry where
  /-- The operator. -/
  operator : String
  /-- The left operand. -/
  left : Operand
  /-- The right operand. -/
  right : Operand
  /-- The name of the item that the bounds are about. -/
  annotatedItem : Option String
  /-- The bounds; they count only together with an item. -/
  bounds : Option Annotation
deriving DecidableEq

/-- A cached item as described. -/
structure CachedEntry where
  /-- The name of the item. -/
  item : String
  /-- The name of the result container that holds its matches. -/
  container : String
deriving DecidableEq

/-- The members of the root or of a subquery, apart from the subqueries inside. -/
structure Members where
  /-- The vertices. -/
  vertices : List VertexEntry
  /-- The edges. -/
  edges : List EdgeEntry
  /-- The constraints. -/
  constraints : List ConstraintEntry
  /-- The derived links. -/
  links : List DerivedLink
  /-- The cached items. -/
  cached : List CachedEntry
deriving DecidableEq

/-- A subquery as described. -/
inductive SubqueryEntry where
  /-- Its annotation, its members and the subqueries inside. -/
  | mk (bounds : Option Annotation) (members : Members) (subqueries : List SubqueryEntry)

namespace SubqueryEntry

mutual

/-- Equality of subqueries is decided part by part. -/
def decideEq : (a b : SubqueryEntry) → Decidable (a = b)
  | mk a ms ss, mk b ns ts =>
    match decEq a b, decEq ms ns, decideEqAll ss ts with
    | isTrue h, isTrue i, isTrue j => isTrue (by rw [h, i, j])
    | isFalse h, _, _ => isFalse (by simp [h])
    | _, isFalse i, _ => isFalse (by simp [i])
    | _, _, isFalse j => isFalse (by simp [j])

/-- Equality of lists of subqueries is decided part by part. -/
def decideEqAll : (as bs : List SubqueryEntry) → Decidable (as = bs)
  | [], [] => isTrue rfl
  | a :: as, b :: bs =>
    match decideEq a b, decideEqAll as bs with
    | isTrue h, isTrue t => isTrue (by rw [h, t])
    | isFalse h, _ => isFalse (by simp [h])
    | _, isFalse t => isFalse (by simp [t])
  | [], _ :: _ => isFalse (by simp)
  | _ :: _, [] => isFalse (by simp)

end

instance : DecidableEq SubqueryEntry := decideEq

end SubqueryEntry

/-- A query as described. -/
structure Description where
  /-- The name of the query. -/
  name : String
  /-- Free text. -/
  description : String
  /-- The members of the root. -/
  members : Members
  /-- The subqueries directly inside the root. -/
  subqueries : List SubqueryEntry
deriving DecidableEq

end GraphPattern
