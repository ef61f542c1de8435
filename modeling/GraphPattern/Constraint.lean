import GraphPattern.Annotation
import GraphPattern.Condition

/-!
# Constraints and derived links

A constraint relates two items of every match, or one item and a constant. A derived link asks for
a new link between the objects that two vertices matched.
-/

namespace GraphPattern

/-- One side of a constraint. -/
inductive Operand where
  /-- An item, compared by one of its attributes or, without one, by its identity. -/
  | item (name : String) (attr : Option String)
  /-- A constant. -/
  | literal (value : Value)
deriving DecidableEq

namespace Operand

/-- The item that an operand names. -/
def itemName? : Operand → Option String
  | item name _ => some name
  | literal _ => none

/-- The attribute that an operand names. -/
def attr? : Operand → Option String
  | item _ attr => attr
  | literal _ => none

/-- Whether an operand is a constant. -/
def isLiteral : Operand → Bool
  | item .. => false
  | literal _ => true

/-- Whether two operands are the same, constants by the values they stand for. -/
def sameOperand : Operand → Operand → Bool
  | literal a, literal b => a.sameValue b
  | a, b => a = b

/-- The text of an operand. -/
def text : Operand → String
  | item name (some attr) => s!"{name}.{attr}"
  | item name none => s!"{name}.id"
  | literal value => value.text

end Operand

/-- A relation that every match must satisfy. -/
structure Constraint where
  /-- The operator as written. -/
  operator : String
  /-- The left operand. -/
  left : Operand
  /-- The right operand. -/
  right : Operand
  /-- The bounds on the annotated item. -/
  bounds : Option Annotation
  /-- The name of the annotated item. -/
  annotatedItem : Option String
  /-- Whether the items are edges, so that the constraint is about links. -/
  onEdges : Bool
deriving DecidableEq

namespace Constraint

/-- A constraint without annotation. Its operator and the names of its items must be given, and
one operand must be an item. -/
def ofOperands (operator : String) (left right : Operand) : Except Error Constraint :=
  if operator = "" then refuseArgument .emptyConstraintOperator
  else if left.itemName? = some "" || right.itemName? = some "" then
    refuseArgument .emptyConstraintItem
  else if left.isLiteral && right.isLiteral then refuseArgument .twoLiterals
  else pure ⟨operator, left, right, none, none, false⟩

/-- The names of the items, left before right. -/
def itemNames (c : Constraint) : List String :=
  [c.left, c.right].filterMap Operand.itemName?

/-- Annotate one of the related items. -/
def annotate (c : Constraint) (item : String) (bounds : Annotation) : Except Error Constraint :=
  if item ∈ c.itemNames then
    pure { c with annotatedItem := some item, bounds := some bounds }
  else refuseArgument (.unrelatedAnnotatedItem item)

/-- Whether one operand is a constant. -/
def hasLiteral (c : Constraint) : Bool := c.left.isLiteral || c.right.isLiteral

/-- Whether one item is compared by an attribute and the other by its identity. -/
def hasMixedOperands (c : Constraint) : Bool :=
  match c.left, c.right with
  | .item _ a, .item _ b => a.isSome ≠ b.isSome
  | _, _ => false

/-- Whether two constraints state the same relation, whatever their annotations. -/
def sameRelation (c d : Constraint) : Bool :=
  c.operator = d.operator && c.left.sameOperand d.left && c.right.sameOperand d.right

/-- The text of a constraint, by which contents are compared as well. -/
def text (c : Constraint) : String :=
  let relation := s!"{c.left.text} {c.operator} {c.right.text}"
  match c.annotatedItem, c.bounds with
  | some item, some bounds => s!"{relation} {item}{bounds.text}"
  | _, _ => relation

end Constraint

/-- A request for links between the objects of two vertices. -/
structure DerivedLink where
  /-- The vertex from whose objects the links lead. -/
  source : String
  /-- The vertex to whose objects the links lead. -/
  target : String
  /-- The attribute that the new links carry. -/
  attr : String
  /-- The value of the attribute as written. -/
  value : String
deriving DecidableEq

namespace DerivedLink

/-- A request; both vertices and the attribute must be named. -/
def ofNames (source target attr value : String) : Except Error DerivedLink :=
  if source = "" || target = "" || attr = "" then refuseArgument .emptyDerivedLinkName
  else pure ⟨source, target, attr, value⟩

/-- The text of a request. -/
def text (l : DerivedLink) : String := s!"{l.source} -> {l.target} ({l.attr}={l.value})"

end DerivedLink

end GraphPattern
