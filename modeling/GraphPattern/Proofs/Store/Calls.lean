import GraphPattern.Proofs.Atomic
import GraphPattern.Store.Container
import GraphPattern.Store.Source

/-!
# Calls of a store

A store is used through calls that work on tables, look into the data or keep containers. A call
gathers what it needs, which may fail, and changes the store only after that. So a call that fails
has changed nothing.
-/

namespace GraphPattern.Store

open Step

/-- A call with its arguments. -/
inductive Call where
  /-- Create a table without rows. -/
  | createTable (columns : List String)
  /-- Ask for the columns of a table. -/
  | columns (table : TableId)
  /-- Pair the rows of two tables. -/
  | join (left right : TableId) (on : List (String × String)) (columns : List JoinColumn)
  /-- Keep the rows of a table that another one has no partner for. -/
  | antiJoin (left right : TableId) (on : List (String × String))
  /-- Keep the rows that satisfy a condition. -/
  | filter (table : TableId) (condition : RowFilter)
  /-- Keep the combinations of cells of some columns, each once. -/
  | distinct (table : TableId) (columns : List String)
  /-- Rename a column. -/
  | renameColumn (table : TableId) (old new : String)
  /-- Add a column that holds one value. -/
  | addConstant (table : TableId) (column : String) (value : Value)
  /-- Add a column that numbers the rows. -/
  | addRowNumber (table : TableId) (column : String)
  /-- Count the rows of every combination of cells. -/
  | countBy (table : TableId) (keys : List String) (count : String)
  /-- Put the rows of several tables one after another. -/
  | union (tables : List TableId)
  /-- Copy a table. -/
  | copy (table : TableId)
  /-- Ask for the number of rows of a table. -/
  | rowCount (table : TableId)
  /-- Release a table. -/
  | release (table : TableId)
  /-- Look for objects. -/
  | matchingObjects (condition : Option Condition)
  /-- Look for links. -/
  | matchingLinks (condition : Option Condition)
  /-- Look for the values of an attribute. -/
  | attributeValues (kind : SourceKind) (attr : String)
  /-- Ask whether a container exists. -/
  | hasContainer (name : String)
  /-- Delete a container. -/
  | deleteContainer (name : String)
  /-- Keep the rows of two tables as a container. -/
  | createContainer (name : String) (objects links : TableId)
  /-- Copy the rows of a container that belong to some items. -/
  | itemTables (container : String) (items : List String)
  /-- Create a link for every row of a table. -/
  | createLinks (table : TableId)
  /-- Ask for the number of matches in a container. -/
  | subgraphCount (container : String)
  /-- Make every change so far durable. -/
  | commit

namespace Call

/-- The step of a call, whose answer does not matter here. -/
def run : Call → StoreStep Unit
  | createTable cols => do let _ ← Store.createTable cols
  | columns id => do let _ ← Store.columns id
  | join l r on cols => do let _ ← Store.join l r on cols
  | antiJoin l r on => do let _ ← Store.antiJoin l r on
  | filter id condition => do let _ ← Store.filter id condition
  | distinct id cols => do let _ ← Store.distinct id cols
  | renameColumn id old new => Store.renameColumn id old new
  | addConstant id column value => Store.addConstant id column value
  | addRowNumber id column => Store.addRowNumber id column
  | countBy id keys count => do let _ ← Store.countBy id keys count
  | union ids => do let _ ← Store.union ids
  | copy id => do let _ ← Store.copy id
  | rowCount id => do let _ ← Store.rowCount id
  | release id => Store.release id
  | matchingObjects condition => do let _ ← Store.matchingObjects condition
  | matchingLinks condition => do let _ ← Store.matchingLinks condition
  | attributeValues kind attr => do let _ ← Store.attributeValues kind attr
  | hasContainer name => do let _ ← Store.hasContainer name
  | deleteContainer name => Store.deleteContainer name
  | createContainer name objects links => Store.createContainer name objects links
  | itemTables name items => do let _ ← Store.itemTables name items
  | createLinks id => do let _ ← Store.createLinks id
  | subgraphCount name => do let _ ← Store.subgraphCount name
  | commit => Store.commit

/-- The store after a call, whether the call succeeds or fails. -/
def after (c : Call) (s : Store) : Store := Step.after c.run s

end Call

variable {α β : Type} {s : Store}

/-! ## What is looked up -/

theorem reads_table (id : TableId) : Reads (table id) :=
  Reads.get.bind fun s => by
    split
    · exact .pure _
    · exact .throw _

theorem reads_unionRows (first : TableId) (layout : List String) :
    ∀ ids, Reads (unionRows first layout ids)
  | [] => .pure _
  | id :: ids => (reads_table id).bind fun _ => (Reads.ofExcept _).bind fun _ =>
      (reads_unionRows first layout ids).bind fun _ => .pure _

theorem reads_container (name : String) : Reads (container name) :=
  Reads.get.bind fun s => by
    split
    · exact .pure _
    · exact .throw _

theorem reads_hasContainer (name : String) : Reads (hasContainer name) :=
  Reads.get.bind fun _ => .pure _

theorem reads_checkFree (name : String) : Reads (checkFree name) :=
  (reads_hasContainer name).bind fun _ => by
    split
    · exact .throw _
    · exact .pure _

theorem reads_matchedColumns (id : TableId) : Reads (matchedColumns id) :=
  (reads_table id).bind fun _ => .ofExcept _

/-! ## What is changed -/

theorem sure_insertTable (t : Table) : Sure (insertTable t) := fun _ _ _ h => by cases h

/-- A table that is computed is kept, or the store stays as it was. -/
theorem atomic_keep (x : Except StoreError Table) :
    Atomic (do insertTable (← ofExcept x) : StoreStep TableId) s :=
  (Reads.ofExcept x).atomic fun t => .of_sure (sure_insertTable t)

theorem atomic_derive (id : TableId) (operation : Table → Except StoreError Table) :
    Atomic (derive id operation) s :=
  (reads_table id).atomic fun t => atomic_keep (operation t)

theorem atomic_alter (id : TableId) (operation : Table → Except StoreError Table) :
    Atomic (alter id operation) s :=
  (reads_table id).atomic fun t => (Reads.ofExcept (operation t)).atomic fun _ =>
    .of_sure (.modify _)

theorem atomic_createTable (columns : List String) : Atomic (createTable columns) s := by
  rw [createTable]
  split
  · exact .of_sure (sure_insertTable _)
  · exact .of_reads (.throw _)

theorem atomic_join (left right : TableId) (on : List (String × String))
    (columns : List JoinColumn) : Atomic (join left right on columns) s :=
  (reads_table left).atomic fun _ => (reads_table right).atomic fun _ => atomic_keep _

theorem atomic_antiJoin (left right : TableId) (on : List (String × String)) :
    Atomic (antiJoin left right on) s :=
  (reads_table left).atomic fun _ => (reads_table right).atomic fun _ => atomic_keep _

/-- A table that does not fit ends a union before anything is kept. -/
theorem atomic_union : ∀ ids, Atomic (union ids) s
  | [] => .of_reads (.throw _)
  | id :: ids => (reads_table id).atomic fun _ => (reads_unionRows id _ ids).atomic fun _ =>
      .of_sure (sure_insertTable _)

theorem atomic_release (id : TableId) : Atomic (release id) s :=
  (reads_table id).atomic fun _ => .of_sure (.modify _)

theorem atomic_deleteContainer (name : String) : Atomic (deleteContainer name) s :=
  (reads_container name).atomic fun _ => .of_sure (.modify _)

/-- Both tables are laid out before the container is kept. -/
theorem atomic_createContainer (name : String) (objects links : TableId) :
    Atomic (createContainer name objects links) s :=
  (reads_checkFree name).atomic fun _ => (reads_matchedColumns objects).atomic fun _ =>
    (reads_matchedColumns links).atomic fun _ => .of_sure (.modify _)

theorem atomic_itemTables (name : String) (items : List String) :
    Atomic (itemTables name items) s :=
  (reads_container name).atomic fun _ => .of_sure
    ((sure_insertTable _).bind fun _ => (sure_insertTable _).bind fun _ => .pure _)

/-- All rows are read before the first link is created. -/
theorem atomic_createLinks (id : TableId) : Atomic (createLinks id) s :=
  (reads_table id).atomic fun _ => (Reads.ofExcept _).atomic fun _ => .of_sure
    ((Sure.modify _).bind fun _ => .pure _)

theorem atomic_commit : Atomic commit s :=
  Reads.get.atomic fun _ => by
    split
    · exact Reads.atomic (.throw _) fun _ => .of_sure (.modify _)
    · exact .of_sure (.modify _)

/-- To ignore an answer does not fail. -/
theorem atomic_ignored {x : StoreStep α} (h : Atomic x s) :
    Atomic (do let _ ← x : StoreStep Unit) s :=
  h.bind fun _ => .pure _

namespace Call

theorem atomic_run (c : Call) (s : Store) : Atomic c.run s := by
  cases c with
  | createTable cols => exact atomic_ignored (atomic_createTable cols)
  | columns id => exact .of_reads (((reads_table id).bind fun _ => .pure _).bind fun _ => .pure _)
  | join l r on cols => exact atomic_ignored (atomic_join l r on cols)
  | antiJoin l r on => exact atomic_ignored (atomic_antiJoin l r on)
  | filter id condition => exact atomic_ignored (atomic_derive id _)
  | distinct id cols => exact atomic_ignored (atomic_derive id _)
  | renameColumn id old new => exact atomic_alter id _
  | addConstant id column value => exact atomic_alter id _
  | addRowNumber id column => exact atomic_alter id _
  | countBy id keys count => exact atomic_ignored (atomic_derive id _)
  | union ids => exact atomic_ignored (atomic_union ids)
  | copy id => exact atomic_ignored (atomic_derive id _)
  | rowCount id => exact .of_reads (((reads_table id).bind fun _ => .pure _).bind fun _ => .pure _)
  | release id => exact atomic_release id
  | matchingObjects condition =>
    exact atomic_ignored (Reads.get.atomic fun _ => .of_sure (sure_insertTable _))
  | matchingLinks condition =>
    exact atomic_ignored (Reads.get.atomic fun _ => .of_sure (sure_insertTable _))
  | attributeValues kind attr =>
    exact atomic_ignored (Reads.get.atomic fun _ => .of_sure (sure_insertTable _))
  | hasContainer name => exact .of_reads ((reads_hasContainer name).bind fun _ => .pure _)
  | deleteContainer name => exact atomic_deleteContainer name
  | createContainer name objects links => exact atomic_createContainer name objects links
  | itemTables name items => exact atomic_ignored (atomic_itemTables name items)
  | createLinks id => exact atomic_ignored (atomic_createLinks id)
  | subgraphCount name =>
    exact .of_reads (((reads_container name).bind fun _ => .pure _).bind fun _ => .pure _)
  | commit => exact atomic_commit

/-- A call that fails leaves the tables and what they hold, the next number of a table, the objects,
the links, the containers and the count of commits as they were. -/
theorem unchanged_of_error {c : Call} {s s' : Store} {e : StoreError}
    (h : c.run s = .error e s') : s' = s :=
  atomic_run c s e s' h

/-- A table of ends of links, the second of which has no number at its target. -/
def halfNumbered : Store :=
  { empty with
    created := 1
    tables := .ofList [(⟨1⟩,⟨[Column.newSource,Column.newTarget],
      [[.int 1,.int 2],[.int 2,.string "x"]]⟩)] }

/-- The first row asks for a link, the second one cannot have any: no link is created. -/
theorem unchanged_of_error_halfNumbered : ∃ e s',
    (createLinks ⟨1⟩).run halfNumbered = .error e s' ∧ s' = halfNumbered := by
  have h : (createLinks ⟨1⟩).run halfNumbered =
      .error (.linkEnds (Value.int 2).text (Value.string "x").text) halfNumbered := rfl
  exact ⟨_,_,h,unchanged_of_error h⟩

end Call

end GraphPattern.Store
