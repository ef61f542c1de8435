import GraphPattern.Table

/-!
# The store

The store holds the data that queries run against, the temporary tables of a run and the result
containers. Tables are numbered from one in the order of their creation, and no number is used
twice. Objects and links are kept in the order of their identifiers.
-/

namespace GraphPattern

/-! The names of the columns that tables made by the library have. -/

namespace Column

/-- The identifier of an object or a link in a table of matches. -/
def itemId : String := "item_id"

/-- The number of a match. -/
def subgraph : String := "subg_id"

/-- The name of the item of the query that was matched. -/
def name : String := "name"

/-- The columns of every table of matches. -/
def matched : List String := [itemId, subgraph, name]

/-- The identifier of an object. -/
def objectId : String := "o_id"

/-- The identifier of a link. -/
def linkId : String := "link_id"

/-- The object from which a link leads. -/
def linkSource : String := "o1_id"

/-- The object to which a link leads. -/
def linkTarget : String := "o2_id"

/-- The identifier of what has an attribute. -/
def bearerId : String := "id"

/-- The value of an attribute. -/
def bearerValue : String := "value"

/-- The object from which a new link is to lead. -/
def newSource : String := "from"

/-- The object to which a new link is to lead. -/
def newTarget : String := "to"

/-- What the name of a column begins with if it holds an attribute of new links. -/
def newAttribute : String := "attr_"

end Column

/-- The attributes of an object or a link. -/
abbrev Attributes := OrderedMap String Value

/-- A link between two objects. -/
structure StoredLink where
  /-- The object from which it leads. -/
  source : Int
  /-- The object to which it leads. -/
  target : Int
  /-- Its attributes. -/
  attributes : Attributes
deriving DecidableEq

/-- The matches of a query. -/
structure StoredContainer where
  /-- The matched objects. -/
  objects : Table
  /-- The matched links. -/
  links : Table
deriving DecidableEq

/-- Data, temporary tables and result containers. -/
structure Store where
  /-- How many tables have been created. -/
  created : Nat
  /-- The tables that have not been released. -/
  tables : OrderedMap TableId Table
  /-- The objects by identifier. -/
  objects : OrderedMap Int Attributes
  /-- The links by identifier. -/
  links : OrderedMap Int StoredLink
  /-- The result containers by name. -/
  containers : OrderedMap String StoredContainer
  /-- How often changes have been made durable. -/
  commits : Nat
  /-- Whether commits fail. -/
  failsCommits : Bool
deriving DecidableEq

/-- A step on the store. -/
abbrev StoreStep := EStateM StoreError Store

namespace Store

/-- The store that holds nothing. -/
def empty : Store := ⟨0, .empty, .empty, .empty, .empty, 0, false⟩

instance : Inhabited Store := ⟨empty⟩

/-- Add or replace an object. -/
def addObject (s : Store) (id : Int) (attributes : Attributes) : Store :=
  { s with objects := s.objects.insert id attributes }

/-- Add or replace a link. -/
def addLink (s : Store) (id : Int) (link : StoredLink) : Store :=
  { s with links := s.links.insert id link }

/-- A table that has not been released. -/
def table (id : TableId) : StoreStep Table := do
  match (← get).tables.find? id with
  | some table => return table
  | none => throw (.unknownTable id)

/-- Keep a new table. -/
def insertTable (table : Table) : StoreStep TableId := do
  let s ← get
  let id : TableId := ⟨s.created + 1⟩
  set { s with created := s.created + 1, tables := s.tables.insert id table }
  return id

/-- Put another table in the place of one. -/
def setTable (id : TableId) (table : Table) : StoreStep Unit :=
  modify fun s => { s with tables := s.tables.insert id table }

/-- Keep what an operation on a table makes of it. -/
def derive (id : TableId) (operation : Table → Except StoreError Table) : StoreStep TableId := do
  let source ← table id
  let result ← ofExcept (operation source)
  insertTable result

/-- Create a table without rows. -/
def createTable (columns : List String) : StoreStep TableId :=
  if columns.Nodup then insertTable (.bare columns) else throw (.duplicateColumns columns)

/-- The names of the columns of a table. -/
def columns (id : TableId) : StoreStep (List String) := return (← table id).columns

/-- The number of rows of a table. -/
def rowCount (id : TableId) : StoreStep Nat := return (← table id).rows.length

/-- Copy a table. -/
def copy (id : TableId) : StoreStep TableId := derive id pure

/-- Pair the rows of two tables that agree on pairs of columns. -/
def join (left right : TableId) (on : List (String × String)) (columns : List JoinColumn) :
    StoreStep TableId := do
  let leftTable ← table left
  let rightTable ← table right
  let result ← ofExcept (leftTable.join left rightTable right on columns)
  insertTable result

/-- The rows of the left table that agree with no row of the right one. -/
def antiJoin (left right : TableId) (on : List (String × String)) : StoreStep TableId := do
  let leftTable ← table left
  let rightTable ← table right
  let result ← ofExcept (leftTable.antiJoin left rightTable right on)
  insertTable result

/-- The rows that satisfy a condition. -/
def filter (id : TableId) (condition : RowFilter) : StoreStep TableId :=
  derive id fun t => t.filter id condition

/-- The combinations of cells of some columns, each once. -/
def distinct (id : TableId) (columns : List String) : StoreStep TableId :=
  derive id fun t => t.distinct id columns

/-- The combinations of cells of some columns, each with the number of its rows. -/
def countBy (id : TableId) (keys : List String) (count : String) : StoreStep TableId :=
  derive id fun t => t.countBy id keys count

/-- The rows of further tables, laid out like the first one. -/
def unionRows (firstId : TableId) (layout : List String) :
    List TableId → StoreStep (List (List Value))
  | [] => return []
  | id :: ids => do
    let next ← table id
    let rows ← ofExcept (next.rowsLike id firstId layout)
    return rows ++ (← unionRows firstId layout ids)

/-- The rows of several tables one after another. Columns are found by name and stand as in the
first table. -/
def union : List TableId → StoreStep TableId
  | [] => throw .emptyUnion
  | id :: ids => do
    let first ← table id
    let rows ← unionRows id first.columns ids
    insertTable ⟨first.columns, first.rows ++ rows⟩

/-- Change a table in its place. -/
def alter (id : TableId) (operation : Table → Except StoreError Table) : StoreStep Unit := do
  let source ← table id
  let result ← ofExcept (operation source)
  setTable id result

/-- Rename a column in its place. -/
def renameColumn (id : TableId) (old new : String) : StoreStep Unit :=
  alter id fun t => t.rename id old new

/-- Add a column that holds one value in every row. -/
def addConstant (id : TableId) (column : String) (value : Value) : StoreStep Unit :=
  alter id fun t => t.addColumn id column fun _ => value

/-- Add a column that numbers the rows from one. -/
def addRowNumber (id : TableId) (column : String) : StoreStep Unit :=
  alter id fun t => t.addColumn id column fun i => .int (i + 1)

/-- Release a table. -/
def release (id : TableId) : StoreStep Unit := do
  let _ ← table id
  modify fun s => { s with tables := s.tables.erase id }

end Store

end GraphPattern
