import GraphPattern.Proofs.Custody.Store
import Mathlib.Logic.Basic

/-!
# Joins by the names of columns

A join looks its rows up in an index under the cells at some positions. Here it is compared with a
loop over all pairs of rows that knows columns by their names alone: two rows are partners if under
every pair of columns both have a value and the values are the same data. The rows that have no
partner are those that an anti-join keeps.
-/

namespace GraphPattern

/-- Values are equal as data if neither of them comes first. -/
theorem Value.compareData_eq_iff {a b : Value} : a.compareData b = .eq ↔ a = b := by
  have hbits : ∀ x y : Binary64, x.bits = y.bits ↔ x = y := by
    intro ⟨x⟩ ⟨y⟩
    rw [Binary64.mk.injEq]
  cases a
  all_goals
    cases b
    all_goals simp [compareData,kindRank,Std.LawfulEqCmp.compare_eq_iff_eq,hbits]

/-- The input that a column of the result of a join comes from. -/
def JoinColumn.source (c : JoinColumn) (L R : Table) : Table :=
  match c.side with
  | .left => L
  | .right => R

namespace Table

variable {L R t : Table} {row l r : List Value} {on : List (String × String)}
  {columns : List JoinColumn} {id lid rid : TableId}

/-! ## Cells under names -/

/-- The cell of a row under a name, that of the first column with this name. -/
def under (t : Table) (row : List Value) (column : String) : Value :=
  cell row (t.columns.idxOf column)

theorem position_of_mem {column : String} (h : column ∈ t.columns) :
    t.position id column = .ok (t.columns.idxOf column) := by
  have hfind : t.columns.findIdx? (· = column) = some (t.columns.idxOf column) :=
    List.findIdx?_eq_some_iff_findIdx_eq.mpr ⟨List.idxOf_lt_length_iff.mpr h,rfl⟩
  rw [position,hfind]
  rfl

theorem positions_of_mem {names : List String} (h : ∀ c ∈ names, c ∈ t.columns) :
    t.positions id names = .ok (names.map t.columns.idxOf) := by
  induction names with
  | nil => rfl
  | cons c names ih =>
    have hrest := ih fun d hd => h d (List.mem_cons_of_mem _ hd)
    rw [positions] at hrest
    rw [positions,List.mapM_cons,position_of_mem (h c List.mem_cons_self),hrest]
    rfl

theorem cells_under (names : List String) :
    cells row (names.map t.columns.idxOf) = names.map (t.under row) := by
  rw [cells,List.map_map]
  rfl

/-! ## Partners -/

/-- Whether two rows have a value under every pair of columns, and the same one. -/
def Partners (L R : Table) (on : List (String × String)) (l r : List Value) : Prop :=
  ∀ p ∈ on, L.under l p.1 ≠ .null ∧ R.under r p.2 ≠ .null ∧
    (L.under l p.1).compareData (R.under r p.2) = .eq

instance : Decidable (L.Partners R on l r) :=
  inferInstanceAs (Decidable (∀ p ∈ on, L.under l p.1 ≠ .null ∧ R.under r p.2 ≠ .null ∧
    (L.under l p.1).compareData (R.under r p.2) = .eq))

/-- The cell that a joined row has in a column. -/
def joinedCell (L R : Table) (l r : List Value) (c : JoinColumn) : Value :=
  match c.side with
  | .left => L.under l c.column
  | .right => R.under r c.column

/-- What a row contributes to a join: a row for each of its partners, in their order. -/
def contribution (L R : Table) (on : List (String × String)) (columns : List JoinColumn)
    (l : List Value) : Rows :=
  (R.rows.filter fun r => L.Partners R on l r).map fun r => columns.map (L.joinedCell R l r)

/-- The join as a loop over the rows of the one table and, for each of them, over those of the
other. -/
def nestedLoop (L R : Table) (on : List (String × String)) (columns : List JoinColumn) : Table :=
  ⟨columns.map JoinColumn.newName,L.rows.flatMap (L.contribution R on columns)⟩

/-- The rows without partners. -/
def unpartnered (L R : Table) (on : List (String × String)) : Table :=
  ⟨L.columns,L.rows.filter fun l => ∀ r ∈ R.rows, ¬L.Partners R on l r⟩

/-- The keys of partners are the same and have values. -/
theorem agree_partners : agree ((on.map Prod.fst).map L.columns.idxOf)
    ((on.map Prod.snd).map R.columns.idxOf) l r = decide (L.Partners R on l r) := by
  have hcells : cells r ((on.map Prod.snd).map R.columns.idxOf) =
      cells l ((on.map Prod.fst).map L.columns.idxOf) ↔
        ∀ p ∈ on, R.under r p.2 = L.under l p.1 := by
    rw [cells_under,cells_under]
    simp only [List.map_map,List.map_inj_left,Function.comp]
  rw [Bool.eq_iff_iff,agree_iff,decide_eq_true_eq,hcells]
  have hnull : ∀ v : Value, v.isNull = false ↔ v ≠ .null := by
    intro v
    cases v
    all_goals simp [Value.isNull]
  constructor
  · intro ⟨hl,hr⟩ p hp
    have hvalue : L.under l p.1 ≠ .null := by
      refine (hnull _).mp (hl _ ?_)
      exact List.mem_map_of_mem (List.mem_map_of_mem hp)
    have heq : R.under r p.2 = L.under l p.1 := hr p hp
    exact ⟨hvalue,heq ▸ hvalue,Value.compareData_eq_iff.mpr heq.symm⟩
  · intro h
    constructor
    · intro i hi
      obtain ⟨c,hc,rfl⟩ := List.mem_map.mp hi
      obtain ⟨p,hp,rfl⟩ := List.mem_map.mp hc
      exact (hnull _).mpr (h p hp).1
    · intro p hp
      exact (Value.compareData_eq_iff.mp (h p hp).2.2).symm

theorem pick_of_mem {c : JoinColumn} (h : c.column ∈ (c.source L R).columns) :
    L.pick lid R rid c = .ok (c.side,(c.source L R).columns.idxOf c.column) := by
  obtain ⟨side,column,new⟩ := c
  cases side with
  | left =>
    have hposition : L.position lid column = .ok (L.columns.idxOf column) := position_of_mem h
    simp only [pick,hposition]
    rfl
  | right =>
    have hposition : R.position rid column = .ok (R.columns.idxOf column) := position_of_mem h
    simp only [pick,hposition]
    rfl

/-- The columns of the result are taken from the inputs by their names. -/
theorem picks_of_mem (h : ∀ c ∈ columns, c.column ∈ (c.source L R).columns) :
    columns.mapM (L.pick lid R rid) =
      .ok (columns.map fun c => (c.side,(c.source L R).columns.idxOf c.column)) := by
  induction columns with
  | nil => rfl
  | cons c columns ih =>
    have hrest := ih fun d hd => h d (List.mem_cons_of_mem _ hd)
    rw [List.mapM_cons,pick_of_mem (h c List.mem_cons_self),hrest]
    rfl

theorem pickCells_source :
    pickCells (columns.map fun c => (c.side,(c.source L R).columns.idxOf c.column)) l r =
      columns.map (L.joinedCell R l r) := by
  rw [pickCells,List.map_map]
  refine List.map_congr_left fun c _ => ?_
  obtain ⟨side,column,new⟩ := c
  cases side with
  | left => rfl
  | right => rfl

/-- The join of the rows is the loop over them. -/
theorem joinRows_eq : joinRows ((on.map Prod.fst).map L.columns.idxOf)
    ((on.map Prod.snd).map R.columns.idxOf)
    (columns.map fun c => (c.side,(c.source L R).columns.idxOf c.column)) L.rows R.rows =
      (L.nestedLoop R on columns).rows := by
  refine List.flatMap_congr fun l _ => ?_
  have hpartners : R.rows.filter (agree ((on.map Prod.fst).map L.columns.idxOf)
      ((on.map Prod.snd).map R.columns.idxOf) l) = R.rows.filter fun r => L.Partners R on l r :=
    List.filter_congr fun r _ => agree_partners
  rw [hpartners]
  exact List.map_congr_left fun r _ => pickCells_source

theorem antiJoinRows_eq : antiJoinRows ((on.map Prod.fst).map L.columns.idxOf)
    ((on.map Prod.snd).map R.columns.idxOf) L.rows R.rows = (L.unpartnered R on).rows := by
  refine List.filter_congr fun l _ => ?_
  rw [Bool.eq_iff_iff,List.isEmpty_iff,List.filter_eq_nil_iff,decide_eq_true_eq]
  simp only [agree_partners,decide_eq_true_eq]

/-- A row contributes to the join exactly if it has partners. -/
theorem contribution_ne_nil :
    L.contribution R on columns l ≠ [] ↔ ∃ r ∈ R.rows, L.Partners R on l r := by
  rw [contribution,ne_eq,List.map_eq_nil_iff,List.filter_eq_nil_iff]
  simp

theorem mem_unpartnered :
    l ∈ (L.unpartnered R on).rows ↔ l ∈ L.rows ∧ ∀ r ∈ R.rows, ¬L.Partners R on l r := by
  rw [unpartnered,List.mem_filter,decide_eq_true_eq]

end Table

namespace Store

variable {s : Store} {x : StoreStep TableId} {a b : TableId} {L R : Table}
  {on : List (String × String)} {columns : List JoinColumn} {cols : List String} {rows : Rows}

/-- The step answers with a new table and changes nothing else. -/
def Answers (s : Store) (x : StoreStep TableId) (t : Table) : Prop :=
  ∃ id s', x s = .ok id s' ∧ s'.tables.find? id = some t ∧ ¬s.Live id ∧ s.SameData s' ∧
    ∀ i, s.Live i → s'.tables.find? i = s.tables.find? i

/-- A table that is made is new because no table has a number that was not given. -/
theorem Makes.answers (h : s.Makes x cols rows) (hs : s.Counted) : s.Answers x ⟨cols,rows⟩ := by
  obtain ⟨id,s',hx,hm⟩ := h.ok
  have hnew : ¬s.Live id := fun hlive => Nat.not_lt_of_le (hs hlive) hm.fresh
  exact ⟨id,s',hx,hm.holds,hnew,hm.grows.data,fun i hi => hm.grows.tables (hs hi)⟩

theorem positions_left (hon : ∀ p ∈ on, p.1 ∈ L.columns ∧ p.2 ∈ R.columns) :
    L.positions a (on.map Prod.fst) = .ok ((on.map Prod.fst).map L.columns.idxOf) := by
  refine Table.positions_of_mem fun c hc => ?_
  obtain ⟨p,hp,rfl⟩ := List.mem_map.mp hc
  exact (hon p hp).1

theorem positions_right (hon : ∀ p ∈ on, p.1 ∈ L.columns ∧ p.2 ∈ R.columns) :
    R.positions b (on.map Prod.snd) = .ok ((on.map Prod.snd).map R.columns.idxOf) := by
  refine Table.positions_of_mem fun c hc => ?_
  obtain ⟨p,hp,rfl⟩ := List.mem_map.mp hc
  exact (hon p hp).2

theorem answers_join (hs : s.Counted) (hL : s.tables.find? a = some L)
    (hR : s.tables.find? b = some R) (hon : ∀ p ∈ on, p.1 ∈ L.columns ∧ p.2 ∈ R.columns)
    (hc : ∀ c ∈ columns, c.column ∈ (c.source L R).columns) :
    s.Answers (join a b on columns) (L.nestedLoop R on columns) := by
  have hmakes := makes_join hL hR (positions_left hon) (positions_right hon) (Table.picks_of_mem hc)
  rw [Table.joinRows_eq] at hmakes
  exact hmakes.answers hs

theorem answers_antiJoin (hs : s.Counted) (hL : s.tables.find? a = some L)
    (hR : s.tables.find? b = some R) (hon : ∀ p ∈ on, p.1 ∈ L.columns ∧ p.2 ∈ R.columns) :
    s.Answers (antiJoin a b on) (L.unpartnered R on) := by
  have hmakes := makes_antiJoin hL hR (positions_left hon) (positions_right hon)
  rw [Table.antiJoinRows_eq] at hmakes
  exact hmakes.answers hs

/-- A join is the loop over all pairs of rows and an anti-join is what it leaves out: every row of
the left table contributes to exactly one of them, and to the anti-join if it has no value under one
of the columns. Without pairs of columns all rows are paired. -/
theorem join_partitions (hs : s.Reached) (hL : s.tables.find? a = some L)
    (hR : s.tables.find? b = some R) (hon : ∀ p ∈ on, p.1 ∈ L.columns ∧ p.2 ∈ R.columns)
    (hc : ∀ c ∈ columns, c.column ∈ (c.source L R).columns) :
    s.Answers (join a b on columns) (L.nestedLoop R on columns) ∧
    s.Answers (antiJoin a b on) (L.unpartnered R on) ∧
    (∀ l ∈ L.rows, Xor (L.contribution R on columns l ≠ []) (l ∈ (L.unpartnered R on).rows)) ∧
    (∀ l ∈ L.rows, (∃ p ∈ on, L.under l p.1 = .null) → l ∈ (L.unpartnered R on).rows) ∧
    (on = [] → (L.nestedLoop R on columns).rows =
      L.rows.flatMap fun l => R.rows.map fun r => columns.map (L.joinedCell R l r)) := by
  refine ⟨answers_join hs.counted hL hR hon hc,answers_antiJoin hs.counted hL hR hon,?_,?_,?_⟩
  · intro l hl
    rw [Table.contribution_ne_nil,Table.mem_unpartnered]
    by_cases h : ∃ r ∈ R.rows, L.Partners R on l r
    · obtain ⟨r,hr,hp⟩ := h
      exact .inl ⟨⟨r,hr,hp⟩,fun hnone => hnone.2 r hr hp⟩
    · exact .inr ⟨⟨hl,fun r hr hp => h ⟨r,hr,hp⟩⟩,h⟩
  · intro l hl hnull
    obtain ⟨p,hp,hnull⟩ := hnull
    refine Table.mem_unpartnered.mpr ⟨hl,fun r _ hpartners => ?_⟩
    exact (hpartners p hp).1 hnull
  · intro he
    have hall : ∀ l r, L.Partners R on l r := by
      intro l r p hp
      rw [he] at hp
      exact absurd hp List.not_mem_nil
    refine List.flatMap_congr fun l _ => ?_
    rw [Table.contribution,List.filter_eq_self.mpr fun r _ => decide_eq_true (hall l r)]

/-- Two of four rows have no value under the second column. -/
def halfBlank : Table := ⟨[Column.objectId,"kind"],
  [[.int 1,.int 7],[.int 2,.int 7],[.int 1,.null],[.int 2,.null]]⟩

/-- The table is the union of two tables of objects, one of them without values. -/
def blanked : Store := ((empty.addObject 1 .empty).addObject 2 .empty).called
  [.matchingObjects none,.addConstant ⟨1⟩ "kind" (.int 7),.matchingObjects none,
    .addConstant ⟨2⟩ "kind" .null,.union [⟨1⟩,⟨2⟩]]

/-- The table joined to itself pairs the rows with values, and the other rows are left over. -/
theorem join_partitions_halfBlank :
    blanked.Answers (join ⟨3⟩ ⟨3⟩ [("kind","kind")] [.left Column.objectId "a",
      .right Column.objectId "b"]) ⟨["a","b"],[[.int 1,.int 1],[.int 1,.int 2],[.int 2,.int 1],
        [.int 2,.int 2]]⟩ ∧
    blanked.Answers (antiJoin ⟨3⟩ ⟨3⟩ [("kind","kind")])
      ⟨[Column.objectId,"kind"],[[.int 1,.null],[.int 2,.null]]⟩ := by
  have hreached : blanked.Reached := ((Reached.empty.object 1 .empty).object 2 .empty).called _
  have htable : blanked.tables.find? ⟨3⟩ = some halfBlank := by decide
  have hon : ∀ p ∈ [("kind","kind")], p.1 ∈ halfBlank.columns ∧ p.2 ∈ halfBlank.columns := by
    decide
  have hcolumns : ∀ c ∈ [JoinColumn.left Column.objectId "a",.right Column.objectId "b"],
      c.column ∈ (c.source halfBlank halfBlank).columns := by decide
  obtain ⟨hjoin,hanti,-⟩ := join_partitions hreached htable htable hon hcolumns
  exact ⟨hjoin,hanti⟩

end Store

end GraphPattern
