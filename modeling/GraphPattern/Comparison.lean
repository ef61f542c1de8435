import GraphPattern.Value

/-!
# Comparison operators

Six operators relate two values; the seventh asks whether a value is present at all.
-/

namespace GraphPattern

/-- An operator of a test, a constraint or a row filter. -/
inductive Comparison where
  /-- Equal. -/
  | eq
  /-- Not equal, or not comparable. -/
  | ne
  /-- Less. -/
  | lt
  /-- Less or equal. -/
  | le
  /-- Greater. -/
  | gt
  /-- Greater or equal. -/
  | ge
  /-- Present, whatever the right operand. -/
  | present
deriving DecidableEq, Inhabited

namespace Comparison

/-- The operators in the order of their declaration. -/
def all : List Comparison := [eq, ne, lt, le, gt, ge, present]

/-- The keyword of an operator. -/
def keyword : Comparison → String
  | eq => "eq"
  | ne => "ne"
  | lt => "lt"
  | le => "le"
  | gt => "gt"
  | ge => "ge"
  | present => "exists"

/-- The operator with a given keyword. -/
def ofKeyword? (s : String) : Option Comparison := all.find? fun op => op.keyword = s

/-- Whether the operator relates two values. -/
def isBinary : Comparison → Bool
  | present => false
  | _ => true

/-- The operator that answers the same with its operands exchanged. -/
def swapped : Comparison → Comparison
  | lt => gt
  | le => ge
  | gt => lt
  | ge => le
  | op => op

/-- Whether an operator holds of an outcome of comparing. Values that cannot be compared are not
equal and stand in no order. -/
def admitsOrdering : Comparison → Option Ordering → Bool
  | eq, o => o = some .eq
  | ne, o => o ≠ some .eq
  | lt, o => o = some .lt
  | le, o => o = some .lt || o = some .eq
  | gt, o => o = some .gt
  | ge, o => o = some .gt || o = some .eq
  | present, _ => true

/-- Whether an operator holds between two values. -/
def holds (op : Comparison) (left right : Value) : Bool :=
  match op with
  | present => !left.isNull
  | op => op.admitsOrdering (left.compare? right)

theorem ofKeyword?_keyword (op : Comparison) : ofKeyword? op.keyword = some op := by
  cases op <;> decide

theorem keyword_of_ofKeyword? {s : String} {op : Comparison} (h : ofKeyword? s = some op) :
    op.keyword = s := by
  simpa using List.find?_some h

@[simp] theorem swapped_swapped (op : Comparison) : op.swapped.swapped = op := by
  cases op <;> rfl

end Comparison

end GraphPattern
