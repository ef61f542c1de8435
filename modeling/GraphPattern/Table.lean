import GraphPattern.Comparison
import GraphPattern.Error
import GraphPattern.Group
import GraphPattern.Ordered

/-!
# Tables

A table has named columns and rows of cells. Columns are found by name, the first one if a name
occurs twice. Cells are compared as data; a cell without value matches nothing in a join, but it is
a group of its own. The result of every operation keeps the order of the rows it comes from.
-/

namespace GraphPattern

/-- Cells under named columns. -/
structure Table where
  /-- The names of the columns. -/
  columns : List String
  /-- The rows; each has a cell for every column. -/
  rows : List (List Value)
deriving DecidableEq, Inhabited

/-- The two inputs of a join. -/
inductive JoinSide where
  /-- The input whose rows come in the outer order. -/
  | left
  /-- The input whose rows come in the inner order. -/
  | right
deriving DecidableEq

/-- A column of the result of a join. -/
structure JoinColumn where
  /-- The input it comes from. -/
  side : JoinSide
  /-- Its name there. -/
  column : String
  /-- Its name in the result. -/
  newName : String
deriving DecidableEq

namespace JoinColumn

/-- A column of the left input under a new name. -/
def left (column newName : String) : JoinColumn := ⟨.left, column, newName⟩

/-- A column of the right input under a new name. -/
def right (column newName : String) : JoinColumn := ⟨.right, column, newName⟩

end JoinColumn

/-- One side of a comparison between cells. -/
inductive CellOperand where
  /-- The cell of a column. -/
  | column (name : String)
  /-- A constant. -/
  | value (value : Value)
deriving DecidableEq

/-- A condition on rows. -/
inductive RowFilter where
  /-- A comparison. -/
  | compare (left : CellOperand) (operator : Comparison) (right : CellOperand)
  /-- All of several conditions. -/
  | all (filters : List RowFilter)

namespace RowFilter

/-- Compare a column with a constant. -/
def columnValue (column : String) (operator : Comparison) (value : Value) : RowFilter :=
  compare (.column column) operator (.value value)

/-- Compare two columns. -/
def columns (left : String) (operator : Comparison) (right : String) : RowFilter :=
  compare (.column left) operator (.column right)

end RowFilter

namespace Table

/-- A table without rows. -/
def bare (columns : List String) : Table := ⟨columns, []⟩

/-- The cells of a row by the names of their columns; of two columns with one name the last
counts. -/
def record (t : Table) (row : List Value) : OrderedMap String Value :=
  .ofList (t.columns.zip row)

/-- The cell at a position. -/
def cell (row : List Value) (position : Nat) : Value := row.getD position .null

/-- The cells at some positions. -/
def cells (row : List Value) (positions : List Nat) : List Value := positions.map (cell row)

/-- The key that a row is joined by, unless one of its cells has no value. -/
def joinKey? (row : List Value) (positions : List Nat) : Option (List Value) :=
  let key := cells row positions
  if key.any Value.isNull then none else some key

/-- The position of a column. The number of the table is for the error alone. -/
def position (t : Table) (id : TableId) (column : String) : Except StoreError Nat :=
  match t.columns.findIdx? (· = column) with
  | some i => pure i
  | none => throw (.unknownColumn id column)

/-- The positions of some columns. -/
def positions (t : Table) (id : TableId) (columns : List String) : Except StoreError (List Nat) :=
  columns.mapM (t.position id)

/-- The table with other columns, each taken from the column of the same name. -/
def project (t : Table) (id : TableId) (columns : List String) : Except StoreError Table := do
  let places ← t.positions id columns
  return ⟨columns, t.rows.map fun row => cells row places⟩

/-- Where a column of the result of a join comes from. -/
def pick (left : Table) (leftId : TableId) (right : Table) (rightId : TableId) (c : JoinColumn) :
    Except StoreError (JoinSide × Nat) :=
  match c.side with
  | .left => return (.left, ← left.position leftId c.column)
  | .right => return (.right, ← right.position rightId c.column)

/-- The cells of a joined row. -/
def pickCells (picks : List (JoinSide × Nat)) (left right : List Value) : List Value :=
  picks.map fun (side, i) =>
    match side with
    | .left => cell left i
    | .right => cell right i

/-- The rows of a table that have a join key, grouped by it. -/
def index (t : Table) (positions : List Nat) : List (List Value × List (List Value)) :=
  groups (t.rows.filterMap fun row => (joinKey? row positions).map (·, row))

/-- The rows that an index has for a row of another table. -/
def matchesOf (index : List (List Value × List (List Value))) (row : List Value)
    (positions : List Nat) : List (List Value) :=
  match joinKey? row positions with
  | some key => groupOf key index
  | none => []

/-- Pair the rows of two tables that agree on pairs of columns. -/
def join (left : Table) (leftId : TableId) (right : Table) (rightId : TableId)
    (on : List (String × String)) (columns : List JoinColumn) : Except StoreError Table := do
  let leftKeys ← left.positions leftId (on.map Prod.fst)
  let rightKeys ← right.positions rightId (on.map Prod.snd)
  let picks ← columns.mapM (left.pick leftId right rightId)
  let index := right.index rightKeys
  return ⟨columns.map JoinColumn.newName, left.rows.flatMap fun row =>
    (matchesOf index row leftKeys).map (pickCells picks row)⟩

/-- The rows of the left table that agree with no row of the right one. -/
def antiJoin (left : Table) (leftId : TableId) (right : Table) (rightId : TableId)
    (on : List (String × String)) : Except StoreError Table := do
  let leftKeys ← left.positions leftId (on.map Prod.fst)
  let rightKeys ← right.positions rightId (on.map Prod.snd)
  let index := right.index rightKeys
  return ⟨left.columns, left.rows.filter fun row => (matchesOf index row leftKeys).isEmpty⟩

/-- The value of an operand in a row. -/
def operand (t : Table) (id : TableId) (row : List Value) : CellOperand → Except StoreError Value
  | .column name => return cell row (← t.position id name)
  | .value value => return value

mutual

/-- Whether a row satisfies a condition. A column is looked for only when a row asks for it. -/
def satisfies (t : Table) (id : TableId) (row : List Value) : RowFilter → Except StoreError Bool
  | .compare left operator right => do
    let left ← t.operand id row left
    let right ← t.operand id row right
    return operator.holds left right
  | .all filters => t.satisfiesAll id row filters

/-- Whether a row satisfies several conditions, of which those after the first broken one are not
looked at. -/
def satisfiesAll (t : Table) (id : TableId) (row : List Value) :
    List RowFilter → Except StoreError Bool
  | [] => return true
  | filter :: filters => do
    if ← t.satisfies id row filter then t.satisfiesAll id row filters else return false

end

/-- The rows that satisfy a condition. -/
def filter (t : Table) (id : TableId) (condition : RowFilter) : Except StoreError Table := do
  return ⟨t.columns, ← t.rows.filterM fun row => t.satisfies id row condition⟩

/-- The rows grouped by some of their cells. -/
def groupRows (t : Table) (positions : List Nat) : List (List Value × List (List Value)) :=
  groups (t.rows.map fun row => (cells row positions, row))

/-- The combinations of cells of some columns, each once. -/
def distinct (t : Table) (id : TableId) (columns : List String) : Except StoreError Table := do
  let places ← t.positions id columns
  return ⟨columns, (t.groupRows places).map Prod.fst⟩

/-- The combinations of cells of some columns, each with the number of its rows. -/
def countBy (t : Table) (id : TableId) (keys : List String) (count : String) :
    Except StoreError Table := do
  let places ← t.positions id keys
  return ⟨keys ++ [count], (t.groupRows places).map fun (key, rows) =>
    key ++ [.int rows.length]⟩

/-- Rename a column. -/
def rename (t : Table) (id : TableId) (old new : String) : Except StoreError Table := do
  let place ← t.position id old
  if old ≠ new ∧ new ∈ t.columns then throw (.columnExists id new)
  return { t with columns := t.columns.set place new }

/-- Add a column at the end; its cells are given by the positions of the rows, from zero. -/
def addColumn (t : Table) (id : TableId) (column : String) (value : Nat → Value) :
    Except StoreError Table :=
  if column ∈ t.columns then throw (.columnExists id column)
  else return ⟨t.columns ++ [column], t.rows.mapIdx fun i row => row ++ [value i]⟩

/-- The rows of a table laid out like another one, which must have as many columns. -/
def rowsLike (t : Table) (id : TableId) (firstId : TableId) (layout : List String) :
    Except StoreError (List (List Value)) := do
  if t.columns.length ≠ layout.length then
    throw (.unionMismatch firstId layout id t.columns)
  return (← t.project id layout).rows

/-- The rows whose cell at a position is one of some texts. -/
def withText (t : Table) (position : Nat) (texts : List String) : Table :=
  ⟨t.columns, t.rows.filter fun row => (cell row position).asString?.any (· ∈ texts)⟩

end Table

end GraphPattern
