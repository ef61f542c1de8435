import GraphPattern.Store

/-!
# Result containers and new links

A result container keeps the objects and the links of every match of a query. New links are made
from a table of their ends, all of them or none.
-/

namespace GraphPattern

/-- A row of a table of matches. -/
structure MatchRow where
  /-- The object or the link. -/
  item : Int
  /-- The number of the match. -/
  subgraph : Int
  /-- The name of the item of the query. -/
  name : String
deriving DecidableEq

namespace MatchRow

/-- The cells of a row. -/
def cells (r : MatchRow) : List Value := [.int r.item, .int r.subgraph, .string r.name]

end MatchRow

namespace StoredContainer

/-- The cells that hold the numbers of matches, objects before links. -/
def subgraphCells (c : StoredContainer) : List Value :=
  (c.objects.rows ++ c.links.rows).map fun row => Table.cell row 1

/-- The numbers of the matches in increasing order. -/
def subgraphIds (c : StoredContainer) : List Int :=
  orderedSet (c.subgraphCells.filterMap Value.asInt?)

/-- The row as a row of a table of matches, if its cells are of the right kinds. -/
def matchRow? (row : List Value) : Option MatchRow :=
  match row with
  | [.int item, .int subgraph, .string name] => some ⟨item, subgraph, name⟩
  | _ => none

/-- Whether a member of a match is listed before another: by identifier, then by name. -/
def memberBefore (a b : Int × String) : Bool := a.1 < b.1 || (a.1 = b.1 && a.2 < b.2)

/-- The identifiers and names in one match, in order. -/
def membersIn (t : Table) (subgraph : Int) : List (Int × String) :=
  let rows := (t.rows.filterMap matchRow?).filter fun r => r.subgraph = subgraph
  sortBy memberBefore (rows.map fun r => (r.item, r.name))

end StoredContainer

namespace Store

/-- Whether a container of the given name exists. -/
def hasContainer (name : String) : StoreStep Bool := return (← get).containers.contains name

/-- A container that exists. -/
def container (name : String) : StoreStep StoredContainer := do
  match (← get).containers.find? name with
  | some container => return container
  | none => throw (.unknownContainer name)

/-- Refuse the name of a container that exists. -/
def checkFree (name : String) : StoreStep Unit := do
  if ← hasContainer name then throw (.containerExists name)

/-- Keep a new container. -/
def insertContainer (name : String) (container : StoredContainer) : StoreStep Unit :=
  modify fun s => { s with containers := s.containers.insert name container }

/-- Keep a new container with the given rows. -/
def addContainer (name : String) (objects links : List MatchRow) : StoreStep Unit := do
  checkFree name
  insertContainer name
    ⟨⟨Column.matched, objects.map MatchRow.cells⟩, ⟨Column.matched, links.map MatchRow.cells⟩⟩

/-- Delete a container. -/
def deleteContainer (name : String) : StoreStep Unit := do
  let _ ← container name
  modify fun s => { s with containers := s.containers.erase name }

/-- The columns of a table that tables of matches have. -/
def matchedColumns (id : TableId) : StoreStep Table := do
  let source ← table id
  ofExcept (source.project id Column.matched)

/-- Keep the rows of two tables of matches as a new container. -/
def createContainer (name : String) (objects links : TableId) : StoreStep Unit := do
  checkFree name
  let objectTable ← matchedColumns objects
  let linkTable ← matchedColumns links
  insertContainer name ⟨objectTable, linkTable⟩

/-- Copy the rows of a container that belong to some items into two tables, for objects and for
links. -/
def itemTables (name : String) (items : List String) : StoreStep (TableId × TableId) := do
  let source ← container name
  let objects ← insertTable (source.objects.withText 2 items)
  let links ← insertTable (source.links.withText 2 items)
  return (objects, links)

/-- The number of different matches in a container. -/
def subgraphCount (name : String) : StoreStep Nat :=
  return (← container name).subgraphCells.eraseDups.length

/-- The columns that hold attributes of new links, with the names of the attributes. -/
def newAttributes (t : Table) : List (String × Nat) :=
  t.columns.zipIdx.filterMap fun (column, i) =>
    if Column.newAttribute.toList.isPrefixOf column.toList then
      some (String.ofList (column.toList.drop Column.newAttribute.length), i)
    else none

/-- The link that a row asks for. -/
def newLink (source target : Nat) (attributes : List (String × Nat)) (row : List Value) :
    Except StoreError StoredLink :=
  match Table.cell row source, Table.cell row target with
  | .int a, .int b =>
    return ⟨a, b, .ofList (attributes.map fun (attr, i) => (attr, Table.cell row i))⟩
  | a, b => throw (.linkEnds a.text b.text)

/-- The links that the rows of a table ask for. -/
def newLinks (t : Table) (id : TableId) : Except StoreError (List StoredLink) := do
  let source ← t.position id Column.newSource
  let target ← t.position id Column.newTarget
  t.rows.mapM (newLink source target (newAttributes t))

/-- The greatest identifier of a link, or zero. -/
def lastLinkId (s : Store) : Int := s.links.keys.getLastD 0

/-- Create a link for every row of a table and return their number. The new identifiers follow the
greatest one. -/
def createLinks (id : TableId) : StoreStep Nat := do
  let source ← table id
  let created ← ofExcept (newLinks source id)
  modify fun s => created.foldl (fun s link => s.addLink (s.lastLinkId + 1) link) s
  return created.length

/-- Make every change so far durable. -/
def commit : StoreStep Unit := do
  if (← get).failsCommits then throw .commitFailed
  modify fun s => { s with commits := s.commits + 1 }

end Store

end GraphPattern
