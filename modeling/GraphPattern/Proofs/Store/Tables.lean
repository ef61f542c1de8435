import GraphPattern.Proofs.Table
import GraphPattern.Rule.Matches

/-!
# Making tables

What the steps on a store that make tables do: they answer with a table that was not there before,
and they leave the data, the containers and all older tables as they were.
-/

namespace GraphPattern

namespace OrderedMap

variable {κ : Type u} {α : Type v} [DecidableEq κ]

theorem find?_erase (m : OrderedMap κ α) (k j : κ) :
    (m.erase k).find? j = if j = k then none else m.find? j := by
  obtain ⟨es⟩ := m
  simp only [erase,find?]
  induction es with
  | nil => simp [findEntry]
  | cons e es ih =>
    by_cases hk : e.1 = k
    · rw [List.filter_cons_of_neg (by simpa using hk),ih,findEntry]
      by_cases hj : j = k
      · simp [hj]
      · rw [if_neg hj,if_neg hj,if_neg (hk ▸ Ne.symm hj)]
    · rw [List.filter_cons_of_pos (by simpa using hk),findEntry,findEntry,ih]
      by_cases he : e.1 = j
      · rw [if_pos he,if_neg (he ▸ hk),if_pos he]
      · rw [if_neg he,if_neg he]

theorem keys_erase (m : OrderedMap κ α) (k : κ) : (m.erase k).keys = m.keys.filter (· ≠ k) := by
  rw [keys,keys,erase,List.filter_map]
  rfl

theorem erase_of_not_mem {m : OrderedMap κ α} {k : κ} (h : k ∉ m.keys) : m.erase k = m := by
  rw [erase,List.filter_eq_self.mpr fun e he => ?_]
  exact decide_eq_true fun hk => h (hk ▸ List.mem_map_of_mem he)

theorem find?_isSome_iff {m : OrderedMap κ α} {k : κ} :
    (m.find? k).isSome = true ↔ k ∈ m.keys := by
  obtain ⟨es⟩ := m
  simp only [find?,keys]
  induction es with
  | nil => simp [findEntry]
  | cons e es ih =>
    rw [findEntry]
    by_cases he : e.1 = k
    · simp [he]
    · rw [if_neg he,ih,List.map_cons,List.mem_cons]
      exact ⟨.inr,fun h => h.resolve_left (Ne.symm he)⟩

theorem mem_of_find? {m : OrderedMap κ α} {k : κ} {a : α} (h : m.find? k = some a) :
    (k,a) ∈ m.entries := by
  obtain ⟨es⟩ := m
  rw [find?] at h
  induction es with
  | nil => cases h
  | cons e es ih =>
    rw [findEntry] at h
    split at h
    · rename_i he
      cases he
      cases h
      exact List.mem_cons_self
    · exact List.mem_cons_of_mem _ (ih h)

theorem contains_iff {m : OrderedMap κ α} {k : κ} : m.contains k = true ↔ k ∈ m.keys :=
  find?_isSome_iff

variable [LT κ] [DecidableLT κ]

theorem find?_insert (m : OrderedMap κ α) (k j : κ) (a : α) :
    (m.insert k a).find? j = if j = k then some a else m.find? j := by
  by_cases hj : j = k
  · rw [hj,find?_insert_self,if_pos rfl]
  · rw [find?_insert_of_ne m (Ne.symm hj),if_neg hj]

theorem keys_insert (m : OrderedMap κ α) (k : κ) (a : α) :
    (m.insert k a).keys = insertOrdered k m.keys := by
  obtain ⟨es⟩ := m
  simp only [insert,keys]
  induction es with
  | nil => rfl
  | cons e es ih =>
    rw [insertEntry,List.map_cons,insertOrdered]
    split
    · rfl
    · split
      · rename_i he
        rw [List.map_cons,he]
      · rw [List.map_cons,ih]

/-- A new entry stands beside the old ones. -/
theorem insert_perm {m : OrderedMap κ α} {k : κ} (a : α) (h : k ∉ m.keys) :
    (m.insert k a).entries.Perm ((k,a) :: m.entries) := by
  obtain ⟨es⟩ := m
  simp only [insert,keys] at h ⊢
  induction es with
  | nil => exact .refl _
  | cons e es ih =>
    rw [List.map_cons,List.mem_cons,not_or] at h
    rw [insertEntry]
    split
    · exact .refl _
    · rw [if_neg h.1]
      exact ((ih h.2).cons e).trans (.swap _ _ _)

/-- An entry that was new is gone without a trace. -/
theorem erase_insert {m : OrderedMap κ α} {k : κ} {a : α} (h : k ∉ m.keys) :
    (m.insert k a).erase k = m := by
  refine Eq.trans (b:=m.erase k) ?_ (erase_of_not_mem h)
  obtain ⟨es⟩ := m
  simp only [insert,erase]
  clear h
  induction es with
  | nil => simp [insertEntry]
  | cons e es ih =>
    rw [insertEntry]
    split
    · rw [List.filter_cons_of_neg (by simp)]
    · split
      · rename_i he
        rw [List.filter_cons_of_neg (by simp),List.filter_cons_of_neg (by simpa using he.symm)]
      · rename_i he
        have hk : e.1 ≠ k := fun hk => he hk.symm
        rw [List.filter_cons_of_pos (by simpa using hk),List.filter_cons_of_pos (by simpa using hk)]
        exact congrArg (fun es => OrderedMap.mk (e :: es)) (congrArg OrderedMap.entries ih)

end OrderedMap

namespace Store

open Step Table

variable {s s' s'' : Store} {id a b c : TableId} {cols cols' : List String} {rows rows' : Rows}

/-- The store has a table. -/
def Holds (s : Store) (id : TableId) (cols : List String) (rows : Rows) : Prop :=
  s.tables.find? id = some ⟨cols,rows⟩

/-- The second store has the data of the first one. -/
structure SameData (s s' : Store) : Prop where
  /-- The objects are the same. -/
  objects : s'.objects = s.objects
  /-- The links are the same. -/
  links : s'.links = s.links
  /-- The containers are the same. -/
  containers : s'.containers = s.containers
  /-- Commits fail as before. -/
  failsCommits : s'.failsCommits = s.failsCommits

theorem SameData.refl (s : Store) : s.SameData s := ⟨rfl,rfl,rfl,rfl⟩

theorem SameData.trans (h : s.SameData s') (h' : s'.SameData s'') : s.SameData s'' :=
  ⟨h'.objects.trans h.objects,h'.links.trans h.links,h'.containers.trans h.containers,
    h'.failsCommits.trans h.failsCommits⟩

/-- The second store has the data and the tables of the first one, and perhaps newer tables. -/
structure Grows (s s' : Store) : Prop where
  /-- The data are the same. -/
  data : s.SameData s'
  /-- No number is given twice. -/
  created : s.created ≤ s'.created
  /-- Older tables stay as they were. -/
  tables : ∀ {i : TableId}, i.index ≤ s.created → s'.tables.find? i = s.tables.find? i

theorem Grows.refl (s : Store) : s.Grows s := ⟨.refl s,Nat.le_refl _,fun _ => rfl⟩

theorem Grows.trans (h : s.Grows s') (h' : s'.Grows s'') : s.Grows s'' :=
  ⟨h.data.trans h'.data,Nat.le_trans h.created h'.created,fun hi =>
    (h'.tables (Nat.le_trans hi h.created)).trans (h.tables hi)⟩

theorem Grows.holds (h : s.Grows s') (hi : id.index ≤ s.created) (hh : s.Holds id cols rows) :
    s'.Holds id cols rows := (h.tables hi).trans hh

/-- What is known of a table that was made on the way from one store to another. -/
structure Made (s : Store) (id : TableId) (cols : List String) (rows : Rows) (s' : Store) :
    Prop where
  /-- Nothing else has changed. -/
  grows : s.Grows s'
  /-- The table is newer than those before. -/
  fresh : s.created < id.index
  /-- Its number has been given. -/
  bounded : id.index ≤ s'.created
  /-- It is there. -/
  holds : s'.Holds id cols rows

/-- The step makes a table and does nothing else. -/
abbrev Makes (s : Store) (x : StoreStep TableId) (cols : List String) (rows : Rows) : Prop :=
  Outcome x s (fun id s' => s.Made id cols rows s') False

theorem table_of_holds (h : s.Holds id cols rows) : table id s = .ok ⟨cols,rows⟩ s := by
  have hf : s.tables.find? id = some ⟨cols,rows⟩ := h
  simp only [table,bind_apply,get_apply,hf,pure_apply]

theorem makes_insertTable (s : Store) (t : Table) : s.Makes (insertTable t) t.columns t.rows := by
  refine .of_ok (a:=⟨s.created+1⟩) rfl ⟨⟨⟨rfl,rfl,rfl,rfl⟩,Nat.le_succ _,fun {i} hi => ?_⟩,
    Nat.lt_succ_self _,Nat.le_refl _,?_⟩
  · refine OrderedMap.find?_insert_of_ne _ (fun he => ?_) _
    rw [← he] at hi
    exact Nat.not_succ_le_self _ hi
  · exact OrderedMap.find?_insert_self _ _ _

theorem makes_derive {operation : Table → Except StoreError Table} (h : s.Holds id cols rows)
    (ho : operation ⟨cols,rows⟩ = .ok ⟨cols',rows'⟩) : s.Makes (derive id operation) cols' rows' := by
  refine .after (table_of_holds h) ?_
  rw [ho]
  exact .after (ofExcept_ok _ s) (makes_insertTable s ⟨cols',rows'⟩)

theorem makes_filter {condition : RowFilter} {p : List Value → Bool} (h : s.Holds id cols rows)
    (hp : ∀ row, (Table.mk cols rows).satisfies id row condition = .ok (p row)) :
    s.Makes (filter id condition) cols (rows.filter p) :=
  makes_derive h (filter_rows hp)

theorem makes_distinct {columns : List String} {p : List Nat} (h : s.Holds id cols rows)
    (hp : (Table.mk cols rows).positions id columns = .ok p) :
    s.Makes (distinct id columns) columns (distinctRows p rows) :=
  makes_derive h (distinct_rows hp)

theorem makes_countBy {keys : List String} {count : String} {p : List Nat}
    (h : s.Holds id cols rows) (hp : (Table.mk cols rows).positions id keys = .ok p) :
    s.Makes (countBy id keys count) (keys ++ [count]) (countRows p rows) :=
  makes_derive h (countBy_rows hp)

theorem makes_join {on : List (String × String)} {columns : List JoinColumn} {l r : List Nat}
    {p : List (JoinSide × Nat)} (ha : s.Holds a cols rows) (hb : s.Holds b cols' rows')
    (hl : (Table.mk cols rows).positions a (on.map Prod.fst) = .ok l)
    (hr : (Table.mk cols' rows').positions b (on.map Prod.snd) = .ok r)
    (hp : columns.mapM ((Table.mk cols rows).pick a ⟨cols',rows'⟩ b) = .ok p) :
    s.Makes (join a b on columns) (columns.map JoinColumn.newName)
      (joinRows l r p rows rows') := by
  refine .after (table_of_holds ha) (.after (table_of_holds hb) ?_)
  rw [join_rows hl hr hp]
  exact .after (ofExcept_ok _ s) (makes_insertTable s ⟨_,_⟩)

theorem makes_antiJoin {on : List (String × String)} {l r : List Nat}
    (ha : s.Holds a cols rows) (hb : s.Holds b cols' rows')
    (hl : (Table.mk cols rows).positions a (on.map Prod.fst) = .ok l)
    (hr : (Table.mk cols' rows').positions b (on.map Prod.snd) = .ok r) :
    s.Makes (antiJoin a b on) cols (antiJoinRows l r rows rows') := by
  refine .after (table_of_holds ha) (.after (table_of_holds hb) ?_)
  rw [antiJoin_rows hl hr]
  exact .after (ofExcept_ok _ s) (makes_insertTable s ⟨_,_⟩)

/-- The rows of further tables come one after another if each table can be laid out. -/
theorem unionRows_like {tables : List (TableId × Table)} {f : TableId × Table → Rows}
    (h : ∀ t ∈ tables, s.tables.find? t.1 = some t.2 ∧ t.2.rowsLike t.1 id cols = .ok (f t)) :
    unionRows id cols (tables.map Prod.fst) s = .ok (tables.flatMap f) s := by
  induction tables with
  | nil => rfl
  | cons t tables ih =>
    obtain ⟨ht,hrows⟩ := h t List.mem_cons_self
    have hrest := ih fun u hu => h u (List.mem_cons_of_mem _ hu)
    rw [List.map_cons,unionRows,bind_of_ok (table_of_holds ht),hrows,bind_of_ok (ofExcept_ok _ s),
      bind_of_ok hrest]
    rfl

theorem unionRows_ok {tables : List (TableId × Rows)} {ps : List Nat}
    (h : ∀ t ∈ tables, s.Holds t.1 cols t.2)
    (hp : ∀ t ∈ tables, (Table.mk cols t.2).positions t.1 cols = .ok ps) :
    unionRows id cols (tables.map Prod.fst) s =
      .ok (tables.flatMap fun t => t.2.map fun row => cells row ps) s := by
  have hlaid : ∀ u ∈ tables.map fun t => (t.1,Table.mk cols t.2), s.tables.find? u.1 = some u.2 ∧
      u.2.rowsLike u.1 id cols = .ok (u.2.rows.map fun row => cells row ps) := by
    intro u hu
    obtain ⟨t,ht,rfl⟩ := List.mem_map.mp hu
    refine ⟨h t ht,?_⟩
    rw [rowsLike,project_rows (hp t ht)]
    simp
  have hlike := unionRows_like hlaid
  rw [List.map_map,List.flatMap_map] at hlike
  exact hlike

/-- A union lays the rows of the further tables out like those of the first one. -/
theorem makes_union {t : List (TableId × Rows)} {p : List Nat} (ha : s.Holds a cols rows)
    (h : ∀ u ∈ t, s.Holds u.1 cols u.2)
    (hp : ∀ u ∈ t, (Table.mk cols u.2).positions u.1 cols = .ok p) :
    s.Makes (union (a :: t.map Prod.fst)) cols
      (rows ++ t.flatMap fun u => u.2.map fun row => cells row p) :=
  .after (table_of_holds ha) (.after (unionRows_ok h hp) (makes_insertTable s ⟨_,_⟩))

/-! ## Changing a table in its place -/

/-- Nothing has changed but one table. -/
structure Alters (s : Store) (id : TableId) (cols : List String) (rows : Rows) (s' : Store) :
    Prop where
  /-- The data are the same. -/
  data : s.SameData s'
  /-- No table was made. -/
  created : s'.created = s.created
  /-- Other tables stay as they were. -/
  tables : ∀ {i}, i ≠ id → s'.tables.find? i = s.tables.find? i
  /-- The table is the new one. -/
  holds : s'.Holds id cols rows

theorem alters_alter {operation : Table → Except StoreError Table} (h : s.Holds id cols rows)
    (ho : operation ⟨cols,rows⟩ = .ok ⟨cols',rows'⟩) :
    Outcome (alter id operation) s (fun _ s' => s.Alters id cols' rows' s') False := by
  refine .after (table_of_holds h) ?_
  rw [ho]
  refine .after (ofExcept_ok _ s) (.of_ok (a:=⟨⟩) rfl ⟨⟨rfl,rfl,rfl,rfl⟩,rfl,fun hi => ?_,?_⟩)
  · exact OrderedMap.find?_insert_of_ne _ (Ne.symm hi) _
  · exact OrderedMap.find?_insert_self _ _ _

theorem alters_renameColumn {old new : String} (h : s.Holds id cols rows)
    (ho : (Table.mk cols rows).rename id old new = .ok ⟨cols',rows⟩) :
    Outcome (renameColumn id old new) s (fun _ s' => s.Alters id cols' rows s') False :=
  alters_alter h ho

theorem alters_addConstant {column : String} {v : Value} (h : s.Holds id cols rows)
    (hc : column ∉ cols) : Outcome (addConstant id column v) s
      (fun _ s' => s.Alters id (cols ++ [column]) (rows.map fun row => row ++ [v]) s') False := by
  have hrows : (rows.mapIdx fun _ row => row ++ [v]) = rows.map fun row => row ++ [v] :=
    List.ext_getElem? fun i => by simp
  refine alters_alter h ?_
  rw [addColumn,if_neg hc,hrows]
  rfl

theorem alters_addRowNumber {column : String} (h : s.Holds id cols rows) (hc : column ∉ cols) :
    Outcome (addRowNumber id column) s
      (fun _ s' => s.Alters id (cols ++ [column]) (numberedRows rows) s') False := by
  refine alters_alter h ?_
  rw [addColumn,if_neg hc]
  rfl

theorem Alters.trans (h : s.Alters id cols rows s') (h' : s'.Alters id cols' rows' s'') :
    s.Alters id cols' rows' s'' :=
  ⟨h.data.trans h'.data,h'.created.trans h.created,fun hi => (h'.tables hi).trans (h.tables hi),
    h'.holds⟩

theorem Made.alters (h : s.Made id cols rows s') (h' : s'.Alters id cols' rows' s'') :
    s.Made id cols' rows' s'' where
  grows := ⟨h.grows.data.trans h'.data,by rw [h'.created]; exact h.grows.created,fun {i} hi => by
    have hne : i ≠ id := fun he => Nat.not_lt_of_le hi (he ▸ h.fresh)
    rw [h'.tables hne,h.grows.tables hi]⟩
  fresh := h.fresh
  bounded := by rw [h'.created]; exact h.bounded
  holds := h'.holds

/-- A table that is changed after it was made is a table that was made. -/
theorem makes_guarded {x : StoreStep TableId} {f : TableId → StoreStep Unit}
    (h : s.Makes x cols rows) (hf : ∀ id s', s'.Holds id cols rows →
      Outcome (f id) s' (fun _ s'' => s'.Alters id cols' rows' s'') False) :
    s.Makes (do let id ← x; guarded id (f id)) cols' rows' := by
  refine Outcome.bind h fun id s' hm => ?_
  obtain ⟨_,s'',hok,ha⟩ := (hf id s' hm.holds).ok
  refine .of_ok (a:=id) (t:=s'') ?_ (hm.alters ha)
  rw [guarded,EStateM.run,hok]

end Store

end GraphPattern
