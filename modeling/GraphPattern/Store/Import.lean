import GraphPattern.Csv
import GraphPattern.Store
import GraphPattern.Text.Blank

/-!
# Importing objects and links

The first row of a file names the columns. Columns of identifiers hold integers; every other column
is an attribute of the rows in which it is not blank. All rows of a file are read before any of
them is kept.
-/

namespace GraphPattern

/-- A row as imported. -/
structure ImportedRow where
  /-- The identifiers, in the order in which their columns were asked for. -/
  ids : List Int
  /-- The attributes. -/
  attributes : Attributes
deriving DecidableEq

/-- The columns of a file of links that hold identifiers. -/
structure LinkColumns where
  /-- The column of the link. -/
  id : String
  /-- The column of the object from which the link leads. -/
  source : String
  /-- The column of the object to which the link leads. -/
  target : String
deriving DecidableEq

namespace LinkColumns

/-- The columns unless others are named. -/
def standard : LinkColumns := ⟨"id", Column.linkSource, Column.linkTarget⟩

end LinkColumns

namespace Store

/-- The text of a field. -/
def fieldText (bytes : List UInt8) : Except ImportError String :=
  match String.fromUTF8? ⟨bytes.toArray⟩ with
  | some text => pure text
  | none => throw .notText

/-- The position of the column with a given name; blanks around the names do not count. -/
def headerPosition (file : String) (header : List String) (column : String) :
    Except ImportError Nat :=
  match header.findIdx? fun name => Text.trim name = column with
  | some i => pure i
  | none => throw (.missingColumn file column)

/-- The field of a row at a position without blanks around it, empty where the row is too short. -/
def fieldAt (fields : List String) (i : Nat) : String := Text.trim (fields.getD i "")

/-- The identifier in a field. -/
def readId (file : String) (row : Nat) (fields : List String) (column : String) (i : Nat) :
    Except ImportError Int :=
  match readInt64? (fieldAt fields i) with
  | some id => pure id
  | none => throw (.notAnInteger file row column (fieldAt fields i))

/-- The attributes of a row: the fields that are neither identifiers nor blank. -/
def readAttributes (header : List String) (keys : List Nat) (fields : List String) : Attributes :=
  .ofList (header.zipIdx.filterMap fun (name, i) =>
    let raw := fieldAt fields i
    if i ∈ keys || raw = "" then none else some (name, Value.infer raw))

/-- Read one row. Rows count from one after the header. -/
def readRow (file : String) (header : List String) (columns : List (String × Nat))
    (row : List (List UInt8) × Nat) : Except ImportError ImportedRow := do
  let fields ← row.1.mapM fieldText
  let ids ← columns.mapM fun (column, i) => readId file (row.2 + 1) fields column i
  return ⟨ids, readAttributes header (columns.map Prod.snd) fields⟩

/-- Read a file, given the columns that hold identifiers. -/
def readRows (file : String) (columns : List String) (bytes : List UInt8) :
    Except ImportError (List ImportedRow) := do
  let rows := Csv.rows bytes
  let header ← (rows.headD []).mapM fieldText
  let places ← columns.mapM (headerPosition file header)
  (rows.drop 1).zipIdx.mapM (readRow file header (columns.zip places))

/-- Keep the object of a row. -/
def keepObject (s : Store) (row : ImportedRow) : Store :=
  match row.ids with
  | [id] => s.addObject id row.attributes
  | _ => s

/-- Keep the link of a row. -/
def keepLink (s : Store) (row : ImportedRow) : Store :=
  match row.ids with
  | [id, source, target] => s.addLink id ⟨source, target, row.attributes⟩
  | _ => s

/-- Import objects and return the number of rows. -/
def importObjects (file idColumn : String) (bytes : List UInt8) :
    EStateM ImportError Store Nat := do
  let rows ← ofExcept (readRows file [idColumn] bytes)
  modify fun s => rows.foldl keepObject s
  return rows.length

/-- Import links and return the number of rows. -/
def importLinks (file : String) (columns : LinkColumns) (bytes : List UInt8) :
    EStateM ImportError Store Nat := do
  let rows ← ofExcept (readRows file [columns.id, columns.source, columns.target] bytes)
  modify fun s => rows.foldl keepLink s
  return rows.length

end Store

end GraphPattern
