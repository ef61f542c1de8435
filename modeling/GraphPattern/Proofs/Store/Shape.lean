import GraphPattern.Proofs.Store.Calls
import GraphPattern.Proofs.Store.Tables
import Mathlib.Data.List.Nodup

/-!
# The shape of tables

The rows of every table are as wide as it has columns, whatever calls have been made. The columns of
a table have different names as long as no call lays out columns that have not: a table that is
created and a column that is renamed or added are checked for this, but the columns that a join, a
choice of distinct rows and a count of rows give their results are not.
-/

namespace GraphPattern

namespace Table

/-- Every row has a cell for every column. -/
def Rectangular (t : Table) : Prop := ∀ row ∈ t.rows, row.length = t.columns.length

/-- A property that lists of columns keep when a column is renamed or added under a new name, and
that all lists of different columns have. -/
structure Layout (D : List String → Prop) : Prop where
  /-- Different columns have it. -/
  nodup : ∀ {cols : List String}, cols.Nodup → D cols
  /-- A column may get a new name. -/
  set : ∀ {cols : List String} {new : String} (i : Nat), D cols → new ∉ cols → D (cols.set i new)
  /-- A new column may follow. -/
  append : ∀ {cols : List String} {new : String}, D cols → new ∉ cols → D (cols ++ [new])

theorem layout_true : Layout fun _ => True := ⟨fun _ => trivial,fun _ _ _ => trivial,fun _ _ => trivial⟩

theorem layout_nodup : Layout List.Nodup where
  nodup h := h
  set _ h hn := h.set hn
  append h hn := List.nodup_append.mpr ⟨h,List.nodup_singleton _,fun _ ha _ hb he =>
    hn (List.mem_singleton.mp hb ▸ he ▸ ha)⟩

/-- The table is rectangular, and its columns have a property. -/
structure Laid (D : List String → Prop) (t : Table) : Prop where
  /-- The columns have the property. -/
  columns : D t.columns
  /-- Every row has a cell for every column. -/
  rows : t.Rectangular

variable {D : List String → Prop} {t t' l r : Table} {id lid rid : TableId} {cols : List String}
  {rows : Rows}

theorem nodup_matched : Column.matched.Nodup := by decide

theorem Layout.matched (hD : Layout D) (h : t.Laid fun cols => cols = Column.matched) : t.Laid D :=
  ⟨hD.nodup (h.columns ▸ nodup_matched),h.rows⟩

/-- Some of the rows of a table are laid out like all of them. -/
theorem Laid.fewer (h : t.Laid D) (hs : ∀ row ∈ rows, row ∈ t.rows) :
    (Table.mk t.columns rows).Laid D :=
  ⟨h.columns,fun row hrow => h.rows row (hs row hrow)⟩

theorem length_positions {ps : List Nat} (h : t.positions id cols = .ok ps) :
    ps.length = cols.length :=
  (Step.forall₂_of_mapM h).length_eq.symm

/-- The columns that are asked for are those of the result. -/
theorem laid_project (hD : D cols) (h : t.project id cols = .ok t') : t'.Laid D := by
  obtain ⟨ps,hps,h⟩ := Step.except_bind_eq_ok.mp h
  cases h
  refine ⟨hD,fun row hrow => ?_⟩
  obtain ⟨r,-,rfl⟩ := List.mem_map.mp hrow
  exact (List.length_map _).trans (length_positions hps)

theorem laid_join {on : List (String × String)} {columns : List JoinColumn}
    (hD : D (columns.map JoinColumn.newName)) (h : l.join lid r rid on columns = .ok t) :
    t.Laid D := by
  obtain ⟨lk,hlk,h⟩ := Step.except_bind_eq_ok.mp h
  obtain ⟨rk,hrk,h⟩ := Step.except_bind_eq_ok.mp h
  obtain ⟨picks,hpicks,h⟩ := Step.except_bind_eq_ok.mp h
  cases h
  refine ⟨hD,fun row hrow => ?_⟩
  obtain ⟨a,-,hrow⟩ := List.mem_flatMap.mp hrow
  obtain ⟨b,-,rfl⟩ := List.mem_map.mp hrow
  rw [pickCells,List.length_map,List.length_map]
  exact (Step.forall₂_of_mapM hpicks).length_eq.symm

theorem laid_antiJoin {on : List (String × String)} (hl : l.Laid D)
    (h : l.antiJoin lid r rid on = .ok t) : t.Laid D := by
  obtain ⟨lk,-,h⟩ := Step.except_bind_eq_ok.mp h
  obtain ⟨rk,-,h⟩ := Step.except_bind_eq_ok.mp h
  cases h
  exact hl.fewer fun row hrow => (List.mem_filter.mp hrow).1

theorem laid_filter {condition : RowFilter} (ht : t.Laid D) (h : t.filter id condition = .ok t') :
    t'.Laid D := by
  obtain ⟨rows,hrows,h⟩ := Step.except_bind_eq_ok.mp h
  cases h
  exact ht.fewer fun row hrow => Step.mem_of_filterM hrows hrow

theorem laid_distinct (hD : D cols) (h : t.distinct id cols = .ok t') : t'.Laid D := by
  obtain ⟨ps,hps,h⟩ := Step.except_bind_eq_ok.mp h
  cases h
  refine ⟨hD,fun row hrow => ?_⟩
  obtain ⟨r,-,rfl⟩ := mem_distinctRows.mp hrow
  exact (List.length_map _).trans (length_positions hps)

theorem laid_countBy {count : String} (hD : D (cols ++ [count]))
    (h : t.countBy id cols count = .ok t') : t'.Laid D := by
  obtain ⟨ps,hps,h⟩ := Step.except_bind_eq_ok.mp h
  cases h
  refine ⟨hD,fun row hrow => ?_⟩
  obtain ⟨r,-,rfl⟩ := mem_countRows.mp hrow
  rw [List.length_append,List.length_append,cells,List.length_map,length_positions hps]
  rfl

theorem laid_rename (hD : Layout D) {old new : String} (ht : t.Laid D)
    (h : t.rename id old new = .ok t') : t'.Laid D := by
  obtain ⟨i,hi,h⟩ := Step.except_bind_eq_ok.mp h
  split at h
  · cases h
  · rename_i hfree
    cases h
    refine ⟨?_,fun row hrow => (ht.rows row hrow).trans (List.length_set).symm⟩
    by_cases hnew : new ∈ t.columns
    · -- Only its own name may be given to a column a second time.
      obtain rfl : old = new := not_not.mp fun hne => hfree ⟨hne,hnew⟩
      rw [position] at hi
      split at hi
      · rename_i j hj
        cases hi
        obtain ⟨hlt,hold,-⟩ := List.findIdx?_eq_some_iff_getElem.mp hj
        have hsame : t.columns.set i old = t.columns := by
          rw [← of_decide_eq_true hold]
          exact List.set_getElem_self hlt
        rw [hsame]
        exact ht.columns
      · cases hi
    · exact hD.set i ht.columns hnew

theorem laid_addColumn (hD : Layout D) {new : String} {value : Nat → Value} (ht : t.Laid D)
    (h : t.addColumn id new value = .ok t') : t'.Laid D := by
  rw [addColumn] at h
  split at h
  · cases h
  · rename_i hnew
    cases h
    refine ⟨hD.append ht.columns hnew,fun row hrow => ?_⟩
    obtain ⟨i,hi,rfl⟩ := List.mem_mapIdx.mp hrow
    rw [List.length_append,List.length_append,ht.rows _ (List.getElem_mem hi)]
    rfl

theorem length_of_rowsLike {first : TableId} (h : t.rowsLike id first cols = .ok rows) :
    ∀ row ∈ rows, row.length = cols.length := by
  rw [rowsLike] at h
  split at h
  · cases h
  · obtain ⟨t',ht',h⟩ := Step.except_bind_eq_ok.mp h
    cases h
    have hlaid := laid_project (D:=fun cols' => cols' = cols) rfl ht'
    exact fun row hrow => (hlaid.rows row hrow).trans (congrArg List.length hlaid.columns)

end Table

namespace Store

open Step Table

variable {α : Type} {D : List String → Prop} {s s' : Store} {t : Table} {id : TableId}
  {name : String}

/-- The table has not been released, or it is one of the two tables of a container. -/
def Includes (s : Store) (t : Table) : Prop :=
  (∃ id, s.tables.find? id = some t) ∨
    ∃ name C, s.containers.find? name = some C ∧ (t = C.objects ∨ t = C.links)

/-- The tables are rectangular and their columns have a property; those of containers have the
columns of tables of matches. -/
structure Formed (s : Store) (D : List String → Prop) : Prop where
  /-- How the tables are that have not been released. -/
  tables : ∀ {i t}, s.tables.find? i = some t → t.Laid D
  /-- How the tables of containers are. -/
  containers : ∀ {name C}, s.containers.find? name = some C →
    C.objects.Laid (fun cols => cols = Column.matched) ∧
      C.links.Laid fun cols => cols = Column.matched

theorem Formed.includes (h : s.Formed D) (hD : Layout D) (ht : s.Includes t) : t.Laid D := by
  rcases ht with ⟨i,ht⟩|⟨n,C,hC,rfl|rfl⟩
  · exact h.tables ht
  · exact hD.matched (h.containers hC).1
  · exact hD.matched (h.containers hC).2

theorem Formed.of_same (h : s.Formed D) (ht : s'.tables = s.tables)
    (hc : s'.containers = s.containers) : s'.Formed D :=
  ⟨fun hi => h.tables (ht ▸ hi),fun hn => h.containers (hc ▸ hn)⟩

theorem Formed.put (h : s.Formed D) (ht : t.Laid D) (n : Nat) :
    Formed { s with created := n, tables := s.tables.insert id t } D where
  tables := by
    intro i u hu
    rw [OrderedMap.find?_insert] at hu
    split at hu
    · cases hu
      exact ht
    · exact h.tables hu
  containers := h.containers

theorem Formed.erase (h : s.Formed D) (id : TableId) :
    Formed { s with tables := s.tables.erase id } D where
  tables := by
    intro i u hu
    rw [OrderedMap.find?_erase] at hu
    split at hu
    · cases hu
    · exact h.tables hu
  containers := h.containers

theorem Formed.putContainer {C : StoredContainer} (h : s.Formed D)
    (ho : C.objects.Laid fun cols => cols = Column.matched)
    (hl : C.links.Laid fun cols => cols = Column.matched) :
    Formed { s with containers := s.containers.insert name C } D where
  tables := h.tables
  containers := by
    intro n B hB
    rw [OrderedMap.find?_insert] at hB
    split at hB
    · cases hB
      exact ⟨ho,hl⟩
    · exact h.containers hB

theorem Formed.eraseContainer (h : s.Formed D) (name : String) :
    Formed { s with containers := s.containers.erase name } D where
  tables := h.tables
  containers := by
    intro n B hB
    rw [OrderedMap.find?_erase] at hB
    split at hB
    · cases hB
    · exact h.containers hB

/-! ## What a successful step leaves -/

/-- The step leaves the tables formed as they were, and what it answers has a property. -/
abbrev KeepsFormed (D : List String → Prop) (Q : α → Prop) (x : StoreStep α) : Prop :=
  Keeps (fun s => s.Formed D) Q x

theorem keeps_table (id : TableId) : KeepsFormed D (Laid D) (table id) := fun s t s' hs h => by
  cases hu : s.tables.find? id with
  | some u =>
    simp only [table,bind_apply,get_apply,hu,pure_apply] at h
    cases h
    exact ⟨hs,hs.tables hu⟩
  | none => simp [table,bind_apply,hu] at h

theorem keeps_container (name : String) : KeepsFormed D
    (fun C => C.objects.Laid (fun cols => cols = Column.matched) ∧
      C.links.Laid fun cols => cols = Column.matched) (container name) := fun s C s' hs h => by
  cases hB : s.containers.find? name with
  | some B =>
    simp only [container,bind_apply,get_apply,hB,pure_apply] at h
    cases h
    exact ⟨hs,hs.containers hB⟩
  | none => simp [container,bind_apply,hB] at h

theorem keeps_insertTable (h : t.Laid D) : KeepsFormed D (fun _ => True) (insertTable t) :=
  fun s _ s' hs hi => by
  cases hi
  exact ⟨hs.put h _,trivial⟩

theorem keeps_keep {x : Except StoreError Table} (h : ∀ t, x = .ok t → t.Laid D) :
    KeepsFormed D (fun _ => True) (do insertTable (← ofExcept x) : StoreStep TableId) :=
  (Keeps.ofExcept h).bind fun _ => keeps_insertTable

theorem keeps_derive {operation : Table → Except StoreError Table}
    (h : ∀ t t', t.Laid D → operation t = .ok t' → t'.Laid D) :
    KeepsFormed D (fun _ => True) (derive id operation) :=
  (keeps_table id).bind fun t ht => keeps_keep fun t' => h t t' ht

theorem keeps_alter {operation : Table → Except StoreError Table}
    (h : ∀ t t', t.Laid D → operation t = .ok t' → t'.Laid D) :
    KeepsFormed D (fun _ => True) (alter id operation) :=
  (keeps_table id).bind fun t ht => (Keeps.ofExcept fun t' => h t t' ht).bind fun _ ht' =>
    Keeps.modify fun s hs => hs.put ht' s.created

theorem keeps_ignored {x : StoreStep α} (h : KeepsFormed D (fun _ => True) x) :
    KeepsFormed D (fun _ => True) (do let _ ← x : StoreStep Unit) :=
  h.bind fun _ _ => .pure trivial

/-- A table that is created has different columns. -/
theorem keeps_createTable (hD : Layout D) (cols : List String) :
    KeepsFormed D (fun _ => True) (createTable cols) := by
  rw [createTable]
  split
  · rename_i hn
    exact keeps_insertTable ⟨hD.nodup hn,fun _ h => by cases h⟩
  · exact .throw _

theorem keeps_unionRows {cols : List String} (first : TableId) : ∀ ids : List TableId,
    KeepsFormed D (fun rows => ∀ row ∈ rows, row.length = cols.length) (unionRows first cols ids)
  | [] => .pure fun _ h => by cases h
  | id :: ids => (keeps_table id).bind fun _ _ =>
      (Keeps.ofExcept fun _ h => length_of_rowsLike h).bind fun _ hrows =>
        (keeps_unionRows first ids).bind fun _ hrest => .pure fun row hrow =>
          (List.mem_append.mp hrow).elim (hrows row) (hrest row)

theorem keeps_union : ∀ ids, KeepsFormed D (fun _ => True) (union ids)
  | [] => .throw _
  | id :: ids => (keeps_table id).bind fun _ ht => (keeps_unionRows id ids).bind fun _ hrows =>
      keeps_insertTable ⟨ht.columns,fun row hrow =>
        (List.mem_append.mp hrow).elim (ht.rows row) (hrows row)⟩

theorem keeps_release (id : TableId) : KeepsFormed D (fun _ => True) (release id) :=
  (keeps_table id).bind fun _ _ => .modify fun _ hs => hs.erase id

theorem keeps_matchingObjects (hD : Layout D) (condition : Option Condition) :
    KeepsFormed D (fun _ => True) (matchingObjects condition) :=
  Keeps.get.bind fun s _ => keeps_insertTable ⟨hD.nodup (List.nodup_singleton _),fun row hrow => by
    obtain ⟨e,-,rfl⟩ := List.mem_map.mp hrow
    rfl⟩

theorem keeps_matchingLinks (hD : Layout D) (condition : Option Condition) :
    KeepsFormed D (fun _ => True) (matchingLinks condition) := by
  have hn : [Column.linkId,Column.linkSource,Column.linkTarget].Nodup := by decide
  refine Keeps.get.bind fun s _ => keeps_insertTable ⟨hD.nodup hn,fun row hrow => ?_⟩
  obtain ⟨e,-,rfl⟩ := List.mem_map.mp hrow
  rfl

theorem keeps_attributeValues (hD : Layout D) (kind : SourceKind) (attr : String) :
    KeepsFormed D (fun _ => True) (attributeValues kind attr) := by
  have hn : [Column.bearerId,Column.bearerValue].Nodup := by decide
  refine Keeps.get.bind fun s _ => keeps_insertTable ⟨hD.nodup hn,fun row hrow => ?_⟩
  obtain ⟨e,-,he⟩ := List.mem_filterMap.mp hrow
  obtain ⟨v,-,rfl⟩ := Option.map_eq_some_iff.mp he
  rfl

theorem keeps_hasContainer (name : String) : KeepsFormed D (fun _ => True) (hasContainer name) :=
  Keeps.get.bind fun _ _ => .pure trivial

theorem keeps_checkFree (name : String) : KeepsFormed D (fun _ => True) (checkFree name) :=
  (keeps_hasContainer name).bind fun taken _ => by
    cases taken with
    | false => exact .pure trivial
    | true => exact .throw _

theorem keeps_deleteContainer (name : String) :
    KeepsFormed D (fun _ => True) (deleteContainer name) :=
  (keeps_container name).bind fun _ _ => .modify fun _ hs => hs.eraseContainer name

theorem keeps_matchedColumns (id : TableId) :
    KeepsFormed D (Laid fun cols => cols = Column.matched) (matchedColumns id) :=
  (keeps_table id).bind fun _ _ => .ofExcept fun _ => laid_project rfl

theorem keeps_createContainer (name : String) (objects links : TableId) :
    KeepsFormed D (fun _ => True) (createContainer name objects links) :=
  (keeps_checkFree name).bind fun _ _ => (keeps_matchedColumns objects).bind fun _ ho =>
    (keeps_matchedColumns links).bind fun _ hl => .modify fun _ hs => hs.putContainer ho hl

theorem laid_cells (rows : List MatchRow) :
    (Table.mk Column.matched (rows.map MatchRow.cells)).Laid fun cols => cols = Column.matched := by
  refine ⟨rfl,fun row hrow => ?_⟩
  obtain ⟨r,-,rfl⟩ := List.mem_map.mp hrow
  rfl

theorem keeps_addContainer (name : String) (objects links : List MatchRow) :
    KeepsFormed D (fun _ => True) (addContainer name objects links) :=
  (keeps_checkFree name).bind fun _ _ => .modify fun _ hs =>
    hs.putContainer (laid_cells objects) (laid_cells links)

theorem keeps_itemTables (hD : Layout D) (name : String) (items : List String) :
    KeepsFormed D (fun _ => True) (itemTables name items) := by
  have hsome : ∀ {t : Table}, t.Laid (fun cols => cols = Column.matched) →
      (t.withText 2 items).Laid D := fun ht =>
    (hD.matched ht).fewer fun _ hrow => (List.mem_filter.mp hrow).1
  exact (keeps_container name).bind fun _ hC => (keeps_insertTable (hsome hC.1)).bind fun _ _ =>
    (keeps_insertTable (hsome hC.2)).bind fun _ _ => .pure trivial

theorem keeps_createLinks (id : TableId) : KeepsFormed D (fun _ => True) (createLinks id) :=
  (keeps_table id).bind fun _ _ =>
    (Keeps.ofExcept (Q:=fun _ => True) fun _ _ => trivial).bind fun created _ =>
      (Keeps.modify fun s hs => by
        induction created generalizing s with
        | nil => exact hs
        | cons link links ih => exact ih _ (hs.of_same rfl rfl)).bind fun _ _ => .pure trivial

theorem keeps_commit : KeepsFormed D (fun _ => True) commit :=
  Keeps.get.bind fun s _ => by
    have hmore : KeepsFormed D (fun _ => True)
        (modify fun s => { s with commits := s.commits + 1 } : StoreStep Unit) :=
      .modify fun _ hs => hs.of_same rfl rfl
    split
    · exact (Keeps.throw (Q:=fun _ => True) _).bind fun _ _ => hmore
    · exact hmore

/-! ## What a successful step has made -/

theorem includes_of_keep {x : Except StoreError Table}
    (h : (do insertTable (← ofExcept x) : StoreStep TableId) s = .ok id s') :
    ∃ t, x = .ok t ∧ s'.Includes t := by
  obtain ⟨t,s₁,hx,hi⟩ := bind_eq_ok.mp h
  obtain ⟨ht,rfl⟩ := ofExcept_eq_ok.mp hx
  cases hi
  exact ⟨t,ht,.inl ⟨_,OrderedMap.find?_insert_self _ _ _⟩⟩

theorem includes_of_derive {source : TableId} {operation : Table → Except StoreError Table}
    (h : derive source operation s = .ok id s') :
    ∃ t t', operation t = .ok t' ∧ s'.Includes t' := by
  obtain ⟨t,s₁,-,hk⟩ := bind_eq_ok.mp h
  exact ⟨t,includes_of_keep hk⟩

/-! ## Calls -/

namespace Call

/-- The columns that a call gives its result without a look whether they differ. -/
def layout : Call → List String
  | join _ _ _ cols => cols.map JoinColumn.newName
  | distinct _ cols => cols
  | countBy _ keys count => keys ++ [count]
  | _ => []

/-- A call that succeeds leaves the tables formed as they were, if its own layout is of this form. -/
theorem keeps_run (hD : Layout D) (c : Call) (hc : D c.layout) :
    KeepsFormed D (fun _ => True) c.run := by
  cases c with
  | createTable cols => exact keeps_ignored (keeps_createTable hD cols)
  | columns id => exact keeps_ignored ((keeps_table id).bind fun _ _ => .pure trivial)
  | join l r on cols =>
    exact keeps_ignored ((keeps_table l).bind fun _ _ => (keeps_table r).bind fun _ _ =>
      keeps_keep fun _ => laid_join hc)
  | antiJoin l r on =>
    exact keeps_ignored ((keeps_table l).bind fun _ hl => (keeps_table r).bind fun _ _ =>
      keeps_keep fun _ => laid_antiJoin hl)
  | filter id condition => exact keeps_ignored (keeps_derive fun _ _ => laid_filter)
  | distinct id cols => exact keeps_ignored (keeps_derive fun _ _ _ => laid_distinct hc)
  | renameColumn id old new => exact keeps_alter fun _ _ => laid_rename hD
  | addConstant id column value => exact keeps_alter fun _ _ => laid_addColumn hD
  | addRowNumber id column => exact keeps_alter fun _ _ => laid_addColumn hD
  | countBy id keys count => exact keeps_ignored (keeps_derive fun _ _ _ => laid_countBy hc)
  | union ids => exact keeps_ignored (keeps_union ids)
  | copy id =>
    refine keeps_ignored (keeps_derive fun t t' ht h => ?_)
    cases h
    exact ht
  | rowCount id => exact keeps_ignored ((keeps_table id).bind fun _ _ => .pure trivial)
  | release id => exact keeps_release id
  | matchingObjects condition => exact keeps_ignored (keeps_matchingObjects hD condition)
  | matchingLinks condition => exact keeps_ignored (keeps_matchingLinks hD condition)
  | attributeValues kind attr => exact keeps_ignored (keeps_attributeValues hD kind attr)
  | hasContainer name => exact keeps_ignored (keeps_hasContainer name)
  | deleteContainer name => exact keeps_deleteContainer name
  | createContainer name objects links => exact keeps_createContainer name objects links
  | itemTables name items => exact keeps_ignored (keeps_itemTables hD name items)
  | createLinks id => exact keeps_ignored (keeps_createLinks id)
  | subgraphCount name => exact keeps_ignored ((keeps_container name).bind fun _ _ => .pure trivial)
  | commit => exact keeps_commit

theorem formed_after (hD : Layout D) {c : Call} (h : s.Formed D)
    (hc : ∀ s', c.run s = .ok () s' → D c.layout) : (c.after s).Formed D := by
  cases hr : c.run s with
  | ok _ s' =>
    rw [after,after_of_ok hr]
    exact (keeps_run hD c (hc s' hr) s () s' h hr).1
  | error e s' =>
    rw [after,(atomic_run c s).after hr]
    exact h

/-- The layout of a call that succeeds is that of a table. -/
theorem includes_layout {c : Call} (h : c.run s = .ok () s') :
    c.layout = [] ∨ ∃ t, s'.Includes t ∧ t.columns = c.layout := by
  cases c with
  | join l r on cols =>
    obtain ⟨id,s₁,h,hs⟩ := bind_eq_ok.mp h
    cases hs
    obtain ⟨lt,s₂,-,h⟩ := bind_eq_ok.mp h
    obtain ⟨rt,s₃,-,h⟩ := bind_eq_ok.mp h
    obtain ⟨t,ht,hin⟩ := includes_of_keep h
    exact .inr ⟨t,hin,(laid_join (D:=fun c => c = cols.map JoinColumn.newName) rfl ht).columns⟩
  | distinct id cols =>
    obtain ⟨id,s₁,h,hs⟩ := bind_eq_ok.mp h
    cases hs
    obtain ⟨t,t',ht,hin⟩ := includes_of_derive h
    exact .inr ⟨t',hin,(laid_distinct (D:=fun c => c = cols) rfl ht).columns⟩
  | countBy id keys count =>
    obtain ⟨id,s₁,h,hs⟩ := bind_eq_ok.mp h
    cases hs
    obtain ⟨t,t',ht,hin⟩ := includes_of_derive h
    exact .inr ⟨t',hin,(laid_countBy (D:=fun c => c = keys ++ [count]) rfl ht).columns⟩
  | _ => exact .inl rfl

end Call

/-- The store after some calls, one after another. -/
def called (s : Store) (cs : List Call) : Store := cs.foldl (fun s c => c.after s) s

theorem called_take_succ {cs : List Call} {n : Nat} {c : Call} (h : cs[n]? = some c) :
    s.called (cs.take (n+1)) = c.after (s.called (cs.take n)) := by
  rw [called,called,List.take_add_one,h,Option.toList_some,List.foldl_append]
  rfl

/-- The tables stay formed as long as the successful calls lay out their own results in this form. -/
theorem Formed.called (hD : Layout D) (h : s.Formed D) {cs : List Call}
    (hc : ∀ (n : Nat) (c : Call) (s' : Store), cs[n]? = some c →
      c.run (s.called (cs.take n)) = .ok () s' → D c.layout) :
    (s.called cs).Formed D := by
  induction cs generalizing s with
  | nil => exact h
  | cons c cs ih =>
    exact ih (Call.formed_after hD h fun s' hs' => hc 0 c s' rfl hs') fun n d s' hd hs' =>
      hc (n+1) d s' hd hs'

/-- The stores that come about: data are added, containers are put in as they are, commits are made
to fail or to work, and calls succeed or fail. -/
inductive Reached : Store → Prop
  /-- Nothing is there at first. -/
  | empty : Reached empty
  /-- An object is added or replaced. -/
  | object {s : Store} (id : Int) (attributes : Attributes) :
    Reached s → Reached (s.addObject id attributes)
  /-- A link is added or replaced. -/
  | link {s : Store} (id : Int) (link : StoredLink) : Reached s → Reached (s.addLink id link)
  /-- A container is put in. -/
  | container {s s' : Store} {name : String} {objects links : List MatchRow} : Reached s →
    addContainer name objects links s = .ok () s' → Reached s'
  /-- Commits fail from now on, or work again. -/
  | commits {s : Store} (fails : Bool) : Reached s → Reached { s with failsCommits := fails }
  /-- A call is made. -/
  | call {s : Store} (c : Call) : Reached s → Reached (c.after s)

theorem Reached.formed (h : s.Reached) : s.Formed fun _ => True := by
  induction h with
  | empty => exact ⟨nofun,nofun⟩
  | object _ _ _ ih => exact ih.of_same rfl rfl
  | link _ _ _ ih => exact ih.of_same rfl rfl
  | container _ hs ih => exact (keeps_addContainer _ _ _ _ () _ ih hs).1
  | commits _ _ ih => exact ih.of_same rfl rfl
  | call c _ ih => exact Call.formed_after layout_true ih fun _ _ => trivial

theorem Reached.called (h : s.Reached) (cs : List Call) : (s.called cs).Reached := by
  induction cs generalizing s with
  | nil => exact h
  | cons c cs ih => exact ih (h.call c)

/-- A store that has no tables has none with the wrong columns. -/
theorem Formed.of_no_tables (h : s.Formed fun _ => True) (hn : s.tables = .empty) : s.Formed D where
  tables := by
    intro i t ht
    rw [hn] at ht
    cases ht
  containers := h.containers

/-- The rows of every table are as wide as it has columns, and the columns of the tables of
containers differ, whatever calls are made. The columns of all tables differ all the time exactly
if those do that the successful joins, choices of distinct rows and counts of rows lay out. -/
theorem columns_nodup_iff (hs : s.Reached) (hn : s.tables = .empty) (cs : List Call) :
    (∀ t, (s.called cs).Includes t → t.Rectangular) ∧
    (∀ name C, (s.called cs).containers.find? name = some C →
      C.objects.columns.Nodup ∧ C.links.columns.Nodup) ∧
    ((∀ n t, (s.called (cs.take n)).Includes t → t.columns.Nodup) ↔
      ∀ (n : Nat) (c : Call) (s' : Store), cs[n]? = some c →
        c.run (s.called (cs.take n)) = .ok () s' → c.layout.Nodup) := by
  have hformed : (s.called cs).Formed fun _ => True :=
    hs.formed.called layout_true fun _ _ _ _ _ => trivial
  refine ⟨fun t ht => (hformed.includes layout_true ht).rows,fun name C hC => ?_,?_,?_⟩
  · obtain ⟨ho,hl⟩ := hformed.containers hC
    exact ⟨ho.columns ▸ nodup_matched,hl.columns ▸ nodup_matched⟩
  · intro h n c s' hc hr
    rcases Call.includes_layout hr with he|⟨t,ht,he⟩
    · exact he ▸ List.nodup_nil
    · refine he ▸ h (n+1) t ?_
      rwa [called_take_succ hc,Call.after,after_of_ok hr]
  · intro h n t ht
    have hformed : (s.called (cs.take n)).Formed List.Nodup := by
      -- The calls before the n-th one are among all calls.
      refine (hs.formed.of_no_tables hn).called layout_nodup fun m c s' hc hr => ?_
      have hm : m < n := Nat.lt_of_lt_of_le (List.getElem?_eq_some_iff.mp hc).1
        (List.length_take_le _ _)
      rw [List.getElem?_take_of_lt hm] at hc
      rw [List.take_take,Nat.min_eq_left (Nat.le_of_lt hm)] at hr
      exact h m c s' hc hr
    exact (hformed.includes layout_nodup ht).columns

/-- A table with one column, and the different rows of it under that column twice. -/
def doubled : List Call := [.createTable ["g"],.distinct ⟨1⟩ ["g","g"]]

/-- The second call succeeds, so that a table has two columns with one name. Its rows are as wide as
it has columns nevertheless. -/
theorem columns_nodup_iff_doubled : (∀ t, (empty.called doubled).Includes t → t.Rectangular) ∧
    ¬∀ n t, (empty.called (doubled.take n)).Includes t → t.columns.Nodup := by
  obtain ⟨hrows,-,hiff⟩ := columns_nodup_iff .empty rfl doubled
  refine ⟨hrows,fun h => ?_⟩
  have hnodup : ["g","g"].Nodup := hiff.mp h 1 (.distinct ⟨1⟩ ["g","g"]) _ rfl rfl
  exact absurd hnodup (by decide)

end Store

end GraphPattern
