import GraphPattern.Proofs.Step
import GraphPattern.Table

/-!
# Rows under operations on tables

An operation looks its columns up and then works on the cells at their positions. The operations on
rows are given here by themselves, with what their results hold; an operation on a table whose
columns are there is the operation on its rows.
-/

namespace GraphPattern

/-! ## Groups -/

section Groups

variable {κ : Type u} {α : Type v} [DecidableEq κ]

theorem mem_keys_groups {k : κ} {es : List (κ × α)} :
    k ∈ (groups es).map Prod.fst ↔ k ∈ es.map Prod.fst := by
  induction es with
  | nil => rfl
  | cons e es ih =>
    simp only [groups,List.map_cons,List.mem_cons,List.mem_map,List.mem_filter,ne_eq,
      decide_eq_true_eq] at ih ⊢
    constructor
    · rintro (rfl|⟨g,⟨hg,-⟩,rfl⟩)
      · exact .inl rfl
      · exact .inr (ih.mp ⟨g,hg,rfl⟩)
    · rintro (rfl|he)
      · exact .inl rfl
      · obtain ⟨g,hg,rfl⟩ := ih.mpr he
        by_cases hk : g.1 = e.1
        · exact .inl hk
        · exact .inr ⟨g,⟨hg,hk⟩,rfl⟩

theorem nodup_keys_groups (es : List (κ × α)) : ((groups es).map Prod.fst).Nodup := by
  induction es with
  | nil => exact List.nodup_nil
  | cons e es ih =>
    rw [groups,List.map_cons,List.nodup_cons]
    constructor
    · intro hmem
      obtain ⟨g,hg,hge⟩ := List.mem_map.mp hmem
      exact of_decide_eq_true (List.mem_filter.mp hg).2 hge
    · exact ih.sublist ((List.filter_sublist).map _)

theorem groupOf_of_mem {g : κ × List α} {gs : List (κ × List α)} (hn : (gs.map Prod.fst).Nodup)
    (hg : g ∈ gs) : groupOf g.1 gs = g.2 := by
  induction gs with
  | nil => exact absurd hg List.not_mem_nil
  | cons h gs ih =>
    obtain ⟨hnot,hrest⟩ := List.nodup_cons.mp hn
    rw [groupOf]
    rcases List.mem_cons.mp hg with rfl|hg
    · rw [if_pos rfl]
    · have hne : h.1 ≠ g.1 := fun he => hnot (he ▸ List.mem_map_of_mem hg)
      rw [if_neg hne,ih hrest hg]

/-- A group is what comes with its key. -/
theorem mem_groups {g : κ × List α} {es : List (κ × α)} :
    g ∈ groups es ↔
      g.1 ∈ es.map Prod.fst ∧ g.2 = (es.filter fun e => e.1 = g.1).map Prod.snd := by
  constructor
  · intro hg
    refine ⟨mem_keys_groups.mp (List.mem_map_of_mem hg),?_⟩
    rw [← groupOf_groups,groupOf_of_mem (nodup_keys_groups es) hg]
  · rintro ⟨hk,hs⟩
    obtain ⟨h,hh,hhk⟩ := List.mem_map.mp (mem_keys_groups.mpr hk)
    have hhs := groupOf_of_mem (nodup_keys_groups es) hh
    rw [groupOf_groups,hhk,← hs] at hhs
    exact Prod.ext hhk hhs.symm ▸ hh

/-- Groups stand in the order of their first elements. -/
theorem pairwise_groups {before : α → α → Prop} {es : List (κ × α)}
    (h : (es.map Prod.snd).Pairwise before) :
    (groups es).Pairwise fun g g' => ∃ a ∈ g.2, ∀ b ∈ g'.2, before a b := by
  induction es with
  | nil => exact List.Pairwise.nil
  | cons e es ih =>
    obtain ⟨hfirst,hrest⟩ := List.pairwise_cons.mp h
    rw [groups]
    refine List.pairwise_cons.mpr ⟨fun g hg => ⟨e.2,List.mem_cons_self,fun b hb => ?_⟩,
      (ih hrest).filter _⟩
    rw [(mem_groups.mp (List.mem_filter.mp hg).1).2] at hb
    obtain ⟨e',he',rfl⟩ := List.mem_map.mp hb
    exact hfirst _ (List.mem_map_of_mem (List.mem_filter.mp he').1)

end Groups

/-- The rows of a table. -/
abbrev Rows := List (List Value)

namespace Table

variable {cols : List String} {L R rows : Rows} {lk rk ps : List Nat}
  {picks : List (JoinSide × Nat)} {l r row : List Value} {id lid rid : TableId}

/-! ## Joins -/

/-- Whether two rows agree on some of their cells, all of which have a value. -/
def agree (lk rk : List Nat) (l r : List Value) : Bool :=
  (joinKey? l lk).isSome && joinKey? r rk = joinKey? l lk

/-- Rows agree if their cells are the same and have values. -/
theorem agree_iff : agree lk rk l r = true ↔
    (∀ i ∈ lk, (cell l i).isNull = false) ∧ cells r rk = cells l lk := by
  have hkey : ∀ {row : List Value} {ps : List Nat}, (joinKey? row ps).isSome = true ↔
      ∀ i ∈ ps, (cell row i).isNull = false := by
    intro row ps
    rw [joinKey?]
    split
    · rename_i h
      obtain ⟨i,hi,hn⟩ := List.any_eq_true.mp (by rwa [cells,List.any_map] at h)
      simp only [Option.isSome_none,Bool.false_eq_true,false_iff]
      exact fun hall => by rw [Function.comp,hall i hi] at hn; cases hn
    · rename_i h
      rw [cells,List.any_map,Bool.not_eq_true,List.any_eq_false] at h
      simp only [Option.isSome_some,true_iff]
      exact fun i hi => by simpa using h i hi
  rw [agree,Bool.and_eq_true_iff,decide_eq_true_eq,hkey]
  refine and_congr_right fun hl => ?_
  have hsome : joinKey? l lk = some (cells l lk) := by
    rw [joinKey?,if_neg]
    rw [Bool.not_eq_true,cells,List.any_map,List.any_eq_false]
    exact fun i hi => by simp [hl i hi]
  rw [hsome,joinKey?]
  constructor
  · intro h
    split at h
    · cases h
    · exact Option.some_inj.mp h
  · intro h
    rw [if_neg,h]
    rw [Bool.not_eq_true,h,cells,List.any_map,List.any_eq_false]
    exact fun i hi => by simp [hl i hi]

/-- The pairs of rows that agree, as rows of picked cells. -/
def joinRows (lk rk : List Nat) (picks : List (JoinSide × Nat)) (L R : Rows) : Rows :=
  L.flatMap fun l => (R.filter (agree lk rk l)).map (pickCells picks l)

/-- The rows that agree with no row of others. -/
def antiJoinRows (lk rk : List Nat) (L R : Rows) : Rows :=
  L.filter fun l => (R.filter (agree lk rk l)).isEmpty

theorem mem_joinRows : row ∈ joinRows lk rk picks L R ↔
    ∃ l ∈ L, ∃ r ∈ R, agree lk rk l r = true ∧ pickCells picks l r = row := by
  simp only [joinRows,List.mem_flatMap,List.mem_map,List.mem_filter,and_assoc]

theorem mem_antiJoinRows :
    row ∈ antiJoinRows lk rk L R ↔ row ∈ L ∧ ∀ r ∈ R, agree lk rk row r = false := by
  simp only [antiJoinRows,List.mem_filter,List.isEmpty_iff,List.filter_eq_nil_iff,
    Bool.not_eq_true]

/-- What an index finds for a row are the rows that agree with it. -/
theorem matchesOf_index (t : Table) (lk rk : List Nat) (l : List Value) :
    matchesOf (t.index rk) l lk = t.rows.filter (agree lk rk l) := by
  cases hl : joinKey? l lk with
  | none =>
    have hnone : ∀ r ∈ t.rows, ¬agree lk rk l r = true := fun r _ => by simp [agree,hl]
    rw [matchesOf,hl,List.filter_eq_nil_iff.mpr hnone]
  | some key =>
    have hsome : agree lk rk l = fun r => decide (joinKey? r rk = some key) :=
      funext fun r => by simp [agree,hl]
    rw [matchesOf,hl,hsome]
    simp only [index,groupOf_groups]
    induction t.rows with
    | nil => rfl
    | cons r rows ih =>
      rw [List.filterMap_cons,List.filter_cons]
      cases hr : joinKey? r rk with
      | none => simpa [hr] using ih
      | some k =>
        by_cases hk : k = key
        · simpa [hr,hk] using ih
        · simpa [hr,hk] using ih

theorem join_rows {left right : Table} {on : List (String × String)} {columns : List JoinColumn}
    (hl : left.positions lid (on.map Prod.fst) = .ok lk)
    (hr : right.positions rid (on.map Prod.snd) = .ok rk)
    (hp : columns.mapM (left.pick lid right rid) = .ok picks) :
    left.join lid right rid on columns =
      .ok ⟨columns.map JoinColumn.newName,joinRows lk rk picks left.rows right.rows⟩ := by
  rw [join,hl,hr,hp]
  simp only [Step.ok_bind,matchesOf_index]
  rfl

theorem antiJoin_rows {left right : Table} {on : List (String × String)}
    (hl : left.positions lid (on.map Prod.fst) = .ok lk)
    (hr : right.positions rid (on.map Prod.snd) = .ok rk) :
    left.antiJoin lid right rid on = .ok ⟨left.columns,antiJoinRows lk rk left.rows right.rows⟩ := by
  rw [antiJoin,hl,hr]
  simp only [Step.ok_bind,matchesOf_index]
  rfl

/-! ## Groups of rows -/

/-- The combinations of cells at some positions, each once. -/
def distinctRows (ps : List Nat) (rows : Rows) : Rows :=
  (groups (rows.map fun row => (cells row ps,row))).map Prod.fst

/-- The combinations of cells at some positions, each with the number of its rows. -/
def countRows (ps : List Nat) (rows : Rows) : Rows :=
  (groups (rows.map fun row => (cells row ps,row))).map fun g => g.1 ++ [.int g.2.length]

theorem mem_distinctRows : row ∈ distinctRows ps rows ↔ ∃ r ∈ rows, cells r ps = row := by
  rw [distinctRows,mem_keys_groups]
  simp

theorem nodup_distinctRows (ps : List Nat) (rows : Rows) : (distinctRows ps rows).Nodup :=
  nodup_keys_groups _

theorem mem_countRows : row ∈ countRows ps rows ↔ ∃ r ∈ rows,
    cells r ps ++ [.int (rows.countP fun r' => cells r' ps = cells r ps)] = row := by
  have hcount : ∀ key : List Value, ((rows.map fun r => (cells r ps,r)).filter fun e =>
      e.1 = key).length = rows.countP fun r' => cells r' ps = key := fun key => by
    rw [← List.countP_eq_length_filter,List.countP_map]
    rfl
  rw [countRows,List.mem_map]
  constructor
  · rintro ⟨g,hg,rfl⟩
    obtain ⟨hk,hs⟩ := mem_groups.mp hg
    simp only [List.map_map,List.mem_map,Function.comp] at hk
    obtain ⟨r,hr,hrk⟩ := hk
    exact ⟨r,hr,by rw [hrk,hs,List.length_map,hcount]⟩
  · rintro ⟨r,hr,rfl⟩
    have hk : cells r ps ∈ (rows.map fun row => (cells row ps,row)).map Prod.fst := by
      simp only [List.map_map,List.mem_map,Function.comp]
      exact ⟨r,hr,rfl⟩
    obtain ⟨g,hg,hgk⟩ := List.mem_map.mp (mem_keys_groups.mpr hk)
    have hs := (mem_groups.mp hg).2
    exact ⟨g,hg,by rw [hgk,hs,List.length_map,hgk,hcount]⟩

/-- The numbers of rows stand after the combinations of cells. -/
theorem countRows_eq (ps : List Nat) (rows : Rows) : countRows ps rows =
    (distinctRows ps rows).map fun key =>
      key ++ [.int (rows.countP fun r => cells r ps = key)] := by
  rw [countRows,distinctRows,List.map_map]
  refine List.map_congr_left fun g hg => ?_
  obtain ⟨-,hs⟩ := mem_groups.mp hg
  rw [Function.comp,hs,List.length_map,← List.countP_eq_length_filter,List.countP_map]
  rfl

theorem distinct_rows {t : Table} {columns : List String}
    (h : t.positions id columns = .ok ps) :
    t.distinct id columns = .ok ⟨columns,distinctRows ps t.rows⟩ := by
  rw [distinct,h]
  rfl

theorem countBy_rows {t : Table} {keys : List String} {count : String}
    (h : t.positions id keys = .ok ps) :
    t.countBy id keys count = .ok ⟨keys ++ [count],countRows ps t.rows⟩ := by
  rw [countBy,h]
  rfl

/-! ## Rows one by one -/

/-- A condition that is answered for every row keeps the rows for which the answer is yes. -/
theorem filter_rows {t : Table} {condition : RowFilter} {p : List Value → Bool}
    (h : ∀ row, t.satisfies id row condition = .ok (p row)) :
    t.filter id condition = .ok ⟨t.columns,t.rows.filter p⟩ := by
  rw [filter,Step.filterM_ok fun row _ => h row]
  rfl

theorem satisfies_columnValue {t : Table} {column : String} {n : Nat} (operator : Comparison)
    (v : Value) (h : t.position id column = .ok n) :
    t.satisfies id row (.columnValue column operator v) = .ok (operator.holds (cell row n) v) := by
  simp [RowFilter.columnValue,satisfies,operand,h]

theorem satisfies_all_nil {t : Table} : t.satisfies id row (.all []) = .ok true := by
  rw [satisfies,satisfiesAll]
  rfl

theorem satisfies_all_cons {t : Table} {f : RowFilter} {fs : List RowFilter} {p q : Bool}
    (h : t.satisfies id row f = .ok p) (hs : t.satisfies id row (.all fs) = .ok q) :
    t.satisfies id row (.all (f :: fs)) = .ok (p && q) := by
  rw [satisfies] at hs ⊢
  rw [satisfiesAll,h]
  cases p with
  | false => rfl
  | true => exact hs

theorem project_rows {t : Table} {columns : List String} (h : t.positions id columns = .ok ps) :
    t.project id columns = .ok ⟨columns,t.rows.map fun row => cells row ps⟩ := by
  rw [project,h]
  rfl

/-- The rows numbered from one, each number at the end of its row. -/
def numberedRows (rows : Rows) : Rows := rows.mapIdx fun i row => row ++ [.int (i+1)]

end Table

end GraphPattern
