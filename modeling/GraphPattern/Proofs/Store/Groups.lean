import GraphPattern.Proofs.Rule.Rows
import GraphPattern.Proofs.Store.Joins
import Mathlib.Algebra.BigOperators.Group.List.Lemmas
import Mathlib.Algebra.GroupWithZero.Nat
import Mathlib.Algebra.Ring.Int.Defs
import Mathlib.Data.List.GetD

/-!
# Groups of rows and their sizes

Rows that have the same data under some columns belong to one group. Distinct rows are the first
rows of the groups, and counts are the sizes of the groups beside them. Both are described by the
names of columns, and so is what becomes of the counts of several tables when these are put one
after another.
-/

namespace GraphPattern

/-! ## First elements -/

section Firsts

variable {α : Type} (same : α → α → Prop) [DecidableRel same]

/-- The elements of a list that are like no earlier one. -/
def firstsBy (l : List α) : List α :=
  (l.zipIdx.filter fun (e : α × Nat) => ∀ a ∈ l.take e.2, ¬same a e.1).map Prod.fst

variable {same}

theorem mem_of_firstsBy {a : α} {l : List α} (h : a ∈ firstsBy same l) : a ∈ l := by
  obtain ⟨⟨b,n⟩,hb,rfl⟩ := List.mem_map.mp h
  exact List.fst_mem_of_mem_zipIdx (List.mem_filter.mp hb).1

theorem firstsBy_cons (a : α) (l : List α) :
    firstsBy same (a :: l) = a :: (firstsBy same l).filter fun b => ¬same a b := by
  have hrest : (((l.zipIdx 1).filter fun (e : α × Nat) =>
      ∀ b ∈ (a :: l).take e.2, ¬same b e.1).map Prod.fst) =
      (firstsBy same l).filter fun b => ¬same a b := by
    rw [firstsBy,← Nat.zero_add 1,List.zipIdx_succ,List.filter_map,List.map_map,List.filter_map,
      List.filter_filter]
    refine congrArg (List.map Prod.fst) (List.filter_congr fun e _ => ?_)
    simp [Function.comp]
  rw [firstsBy,List.zipIdx_cons,List.filter_cons_of_pos (by simp),List.map_cons,hrest]

end Firsts

/-! ## Sums over the elements of a list, each taken once -/

section Sums

variable {α : Type} [DecidableEq α] {D l : List α}

theorem sum_map_countP (hD : D.Nodup) (h : ∀ a, a ∈ D ↔ a ∈ l) :
    (D.map fun a => l.countP (· = a)).sum = l.length := by
  have hperm : D.Perm l.dedup := by
    refine (List.perm_ext_iff_of_nodup hD (List.nodup_dedup l)).mpr fun a => ?_
    rw [h,List.mem_dedup]
  have hcount : ∀ a, l.countP (· = a) = l.count a := fun a => List.countP_congr fun b _ => by simp
  simp only [hcount]
  rw [(hperm.map _).sum_eq,List.sum_map_count_dedup_eq_length]

theorem sum_map_filter (hD : D.Nodup) (f : α → Int) (k : α) :
    ((D.filter (· = k)).map f).sum = if k ∈ D then f k else 0 := by
  rw [List.filter_eq,hD.count,List.map_replicate,List.sum_replicate]
  split
  · exact one_nsmul _
  · exact zero_nsmul _

end Sums

namespace Table

variable {t u : Table} {row r r' : List Value} {ps : List Nat} {rows : Rows}
  {columns : List String} {count : String} {id : TableId}

/-! ## Distinct rows and counts of rows -/

theorem distinctRows_cons : distinctRows ps (r :: rows) =
    cells r ps :: (distinctRows ps rows).filter fun key => key ≠ cells r ps := by
  rw [distinctRows,List.map_cons,groups,List.map_cons,distinctRows,List.filter_map]
  rfl

/-- The cells of a row under some columns. -/
def key (t : Table) (columns : List String) (row : List Value) : List Value :=
  columns.map (t.under row)

/-- Whether two rows have the same data under all of some columns. -/
def SameGroup (t : Table) (columns : List String) (r r' : List Value) : Prop :=
  ∀ c ∈ columns, (t.under r c).compareData (t.under r' c) = .eq

instance : DecidableRel (t.SameGroup columns) := fun r r' =>
  inferInstanceAs (Decidable (∀ c ∈ columns, (t.under r c).compareData (t.under r' c) = .eq))

/-- The first row of every group, in their order. -/
def firsts (t : Table) (columns : List String) : Rows := firstsBy (t.SameGroup columns) t.rows

/-- The number of rows in the group of a row. -/
def groupSize (t : Table) (columns : List String) (row : List Value) : Nat :=
  t.rows.countP fun r => t.SameGroup columns r row

/-- The cells of the first row of every group. -/
def representatives (t : Table) (columns : List String) : Table :=
  ⟨columns,(t.firsts columns).map (t.key columns)⟩

/-- The cells of some first rows, each with the number of rows in its group. -/
def sized (t : Table) (columns : List String) (count : String) (rows : Rows) : Table :=
  ⟨columns ++ [count],rows.map fun row =>
    t.key columns row ++ [.int (t.groupSize columns row)]⟩

theorem sameGroup_iff : t.SameGroup columns r r' ↔ t.key columns r = t.key columns r' := by
  rw [SameGroup,key,key,List.map_inj_left]
  exact forall₂_congr fun _ _ => Value.compareData_eq_iff

theorem firsts_eq : (t.firsts columns).map (t.key columns) =
    distinctRows (columns.map t.columns.idxOf) t.rows := by
  rw [firsts]
  induction t.rows with
  | nil => rfl
  | cons r rows ih =>
    rw [firstsBy_cons,distinctRows_cons,← ih,cells_under,List.map_cons,List.filter_map]
    refine congrArg (List.cons _) (congrArg (List.map _) (List.filter_congr fun r' _ => ?_))
    simp only [sameGroup_iff,Function.comp,decide_eq_decide]
    exact not_congr eq_comm

theorem groupSize_eq : t.groupSize columns row =
    t.rows.countP fun r => cells r (columns.map t.columns.idxOf) = t.key columns row := by
  refine List.countP_congr fun r _ => ?_
  rw [decide_eq_true_eq,decide_eq_true_eq,sameGroup_iff,cells_under]
  rfl

/-- The cells of the first row of every group, each with the number of rows in the group. -/
def counted (t : Table) (columns : List String) (count : String) : Table :=
  t.sized columns count (t.firsts columns)

theorem counted_rows :
    (t.counted columns count).rows = countRows (columns.map t.columns.idxOf) t.rows := by
  rw [countRows_eq,← firsts_eq,List.map_map]
  refine List.map_congr_left fun row _ => ?_
  rw [groupSize_eq]
  rfl

/-- A row is in its own group. -/
theorem one_le_groupSize (h : row ∈ t.firsts columns) : 1 ≤ t.groupSize columns row := by
  have hself : t.SameGroup columns row row := sameGroup_iff.mpr rfl
  exact List.countP_pos_iff.mpr ⟨row,mem_of_firstsBy h,decide_eq_true hself⟩

theorem mem_firsts_keys {k : List Value} : k ∈ (t.firsts columns).map (t.key columns) ↔
    k ∈ t.rows.map (t.key columns) := by
  rw [firsts_eq,mem_distinctRows,List.mem_map]
  simp only [cells_under,key]

theorem nodup_firsts_keys : ((t.firsts columns).map (t.key columns)).Nodup := by
  rw [firsts_eq]
  exact nodup_distinctRows _ _

theorem groupSize_key : t.groupSize columns row =
    (t.rows.map (t.key columns)).countP (· = t.key columns row) := by
  rw [List.countP_map]
  refine List.countP_congr fun r _ => ?_
  rw [decide_eq_true_eq,sameGroup_iff]
  simp

/-- Every row is in one of the groups, and in one only. -/
theorem sum_groupSize : ((t.firsts columns).map (t.groupSize columns)).sum = t.rows.length := by
  have hsize : (t.firsts columns).map (t.groupSize columns) =
      ((t.firsts columns).map (t.key columns)).map fun k =>
        (t.rows.map (t.key columns)).countP (· = k) := by
    rw [List.map_map]
    exact List.map_congr_left fun row _ => groupSize_key
  rw [hsize,sum_map_countP nodup_firsts_keys fun k => mem_firsts_keys,List.length_map]

/-! ## Sizes under the names of columns -/

/-- Cells that are laid out by names are found under them. -/
theorem cell_map_idxOf {c : String} (f : String → Value) (more : List Value) (h : c ∈ columns) :
    cell (columns.map f ++ more) (columns.idxOf c) = f c := by
  have hlt : columns.idxOf c < (columns.map f).length := by
    rw [List.length_map]
    exact List.idxOf_lt_length_iff.mpr h
  rw [cell,List.getD_append _ _ _ _ hlt,List.getD_eq_getElem _ _ hlt,List.getElem_map,
    List.getElem_idxOf]

theorem key_counted (n : Value) :
    (t.counted columns count).key columns (t.key columns row ++ [n]) = t.key columns row := by
  refine List.map_congr_left fun c hc => ?_
  have hidx : (columns ++ [count]).idxOf c = columns.idxOf c := List.idxOf_append_of_mem hc
  exact (congrArg _ hidx).trans (cell_map_idxOf _ _ hc)

theorem under_counted (h : count ∉ columns) (row : List Value) (n : Value) :
    (t.counted columns count).under (t.key columns row ++ [n]) count = n := by
  have hidx : (columns ++ [count]).idxOf count = (t.key columns row).length := by
    rw [List.idxOf_append_of_notMem h,List.idxOf_cons_self,key,List.length_map]
    rfl
  refine (congrArg _ hidx).trans ?_
  rw [cell,List.getD_append_right _ _ _ _ (Nat.le_refl _),Nat.sub_self]
  rfl

/-- The number that a table of counts has for some cells, zero if it has none. -/
def countUnder (t : Table) (columns : List String) (count : String) (k : List Value) : Int :=
  ((t.rows.filter fun row => t.key columns row = k).map fun row =>
    ((t.under row count).asInt?).getD 0).sum

/-- The number for some cells is the number of rows that have them. -/
theorem countUnder_counted (h : count ∉ columns) (k : List Value) :
    (t.counted columns count).countUnder columns count k =
      ((t.rows.map (t.key columns)).countP (· = k) : Int) := by
  have hsum : (t.counted columns count).countUnder columns count k =
      ((((t.firsts columns).map (t.key columns)).filter (· = k)).map fun k =>
        ((t.rows.map (t.key columns)).countP (· = k) : Int)).sum := by
    rw [countUnder,counted,sized,List.filter_map,List.filter_map,List.map_map,List.map_map]
    have hkeys : (t.firsts columns).filter ((fun row => decide
        ((t.counted columns count).key columns row = k)) ∘ fun row =>
          t.key columns row ++ [.int (t.groupSize columns row)]) =
        (t.firsts columns).filter ((fun k' => decide (k' = k)) ∘ t.key columns) :=
      List.filter_congr fun row _ => by rw [Function.comp,key_counted,Function.comp]
    refine congrArg List.sum ((congrArg _ hkeys).trans (List.map_congr_left fun row _ => ?_))
    have hunder := under_counted (t:=t) h row (.int (t.groupSize columns row))
    exact (congrArg (fun v => (Value.asInt? v).getD 0) hunder).trans (congrArg _ groupSize_key)
  rw [hsum,sum_map_filter nodup_firsts_keys]
  split
  · rfl
  · rename_i hk
    rw [mem_firsts_keys] at hk
    have hnone : (t.rows.map (t.key columns)).countP (· = k) = 0 :=
      List.countP_eq_zero.mpr fun k' hk' he => hk (of_decide_eq_true he ▸ hk')
    rw [hnone]
    rfl

/-! ## Tables one after another -/

/-- The rows of further tables after those of a table, laid out like it by the names of columns. -/
def followed (t : Table) (others : List Table) : Table :=
  ⟨t.columns,t.rows ++ others.flatMap fun u => u.rows.map (u.key t.columns)⟩

/-- Rows keep their cells under all names when they are laid out anew. -/
theorem keys_followed (h : ∀ c ∈ columns, c ∈ t.columns) (others : List Table) :
    (t.followed others).rows.map ((t.followed others).key columns) =
      t.rows.map (t.key columns) ++ others.flatMap fun u => u.rows.map (u.key columns) := by
  have hkey : ∀ (u : Table) (row : List Value),
      (t.followed others).key columns (u.key t.columns row) = u.key columns row := by
    intro u row
    refine List.map_congr_left fun c hc => ?_
    have hcell := cell_map_idxOf (u.under row) [] (h c hc)
    rwa [List.append_nil] at hcell
  have hothers : (others.flatMap fun u => u.rows.map (u.key t.columns)).map
      ((t.followed others).key columns) = others.flatMap fun u => u.rows.map (u.key columns) := by
    rw [List.map_flatMap]
    refine List.flatMap_congr fun u _ => ?_
    rw [List.map_map]
    exact List.map_congr_left fun row _ => hkey u row
  rw [← hothers]
  exact List.map_append

/-- The counts of tables one after another are the sums of their counts. -/
theorem countUnder_followed (h : ∀ c ∈ columns, c ∈ t.columns) (hc : count ∉ columns)
    (others : List Table) (k : List Value) :
    ((t.followed others).counted columns count).countUnder columns count k =
      (t.counted columns count).countUnder columns count k +
        (others.map fun u => (u.counted columns count).countUnder columns count k).sum := by
  have hothers : (((others.flatMap fun u => u.rows.map (u.key columns)).countP (· = k) : Nat) :
      Int) = (others.map fun u => (u.counted columns count).countUnder columns count k).sum := by
    induction others with
    | nil => rfl
    | cons u others ih =>
      rw [List.flatMap_cons,List.countP_append,Int.natCast_add,ih,List.map_cons,List.sum_cons,
        countUnder_counted hc]
  rw [countUnder_counted hc,keys_followed h,List.countP_append,Int.natCast_add,hothers,
    countUnder_counted hc]

end Table

namespace Store

open Step

variable {s : Store} {a : TableId} {t : Table} {columns : List String} {count : String}
  {x : StoreStep TableId} {f : TableId → StoreStep TableId} {cols cols' : List String}
  {rows rows' : Rows}

/-- A table that is made of one that was made is newer than all before both of them. -/
theorem Makes.andThen (h : s.Makes x cols rows)
    (hf : ∀ (id : TableId) (s' : Store), s'.Holds id cols rows → s'.Makes (f id) cols' rows') :
    s.Makes (x >>= f) cols' rows' := by
  refine Outcome.bind h fun id s' hm => (hf id s' hm.holds).imp (fun id' s'' hm' => ?_) fun h => h
  exact ⟨hm.grows.trans hm'.grows,Nat.lt_of_le_of_lt hm.grows.created hm'.fresh,hm'.bounded,
    hm'.holds⟩

theorem makes_representatives (ht : s.tables.find? a = some t)
    (hc : ∀ c ∈ columns, c ∈ t.columns) :
    s.Makes (distinct a columns) columns (t.representatives columns).rows := by
  rw [Table.representatives,Table.firsts_eq]
  exact makes_distinct ht (Table.positions_of_mem hc)

theorem makes_counted (ht : s.tables.find? a = some t) (hc : ∀ c ∈ columns, c ∈ t.columns) :
    s.Makes (countBy a columns count) (columns ++ [count]) (t.counted columns count).rows := by
  rw [Table.counted_rows]
  exact makes_countBy ht (Table.positions_of_mem hc)

/-- The counts within bounds are those of the groups whose size is. -/
theorem makes_admitted (ht : s.tables.find? a = some t) (hc : ∀ c ∈ columns, c ∈ t.columns)
    (hcount : count ∉ columns) (bounds : Annotation) :
    s.Makes (do let counts ← countBy a columns count; filter counts (bounds.rowFilter count))
      (columns ++ [count]) (t.sized columns count ((t.firsts columns).filter fun row =>
        bounds.admits (t.groupSize columns row))).rows := by
  have hrows : (t.counted columns count).rows.filter (fun row => Matches.within bounds
      ((t.counted columns count).under row count)) = (t.sized columns count
        ((t.firsts columns).filter fun row => bounds.admits (t.groupSize columns row))).rows := by
    rw [Table.counted,Table.sized,List.filter_map]
    refine congrArg (List.map _) (List.filter_congr fun row _ => ?_)
    rw [← Matches.within_eq_admits]
    exact congrArg (Matches.within bounds) (Table.under_counted hcount _ _)
  have hmem : count ∈ (t.counted columns count).columns :=
    List.mem_append_right _ List.mem_cons_self
  rw [← hrows]
  refine (makes_counted ht hc).andThen fun counts s' hm => ?_
  exact makes_filter hm (Table.satisfies_rowFilter bounds (Table.position_of_mem hmem))

/-- A union is counted like its first table followed by the others. -/
theorem makes_united {others : List (TableId × Table)} (ht : s.tables.find? a = some t)
    (hothers : ∀ u ∈ others, s.tables.find? u.1 = some u.2 ∧
      u.2.columns.length = t.columns.length ∧ ∀ c ∈ t.columns, c ∈ u.2.columns)
    (hc : ∀ c ∈ columns, c ∈ t.columns) :
    s.Makes (do let united ← union (a :: others.map Prod.fst); countBy united columns count)
      (columns ++ [count]) ((t.followed (others.map Prod.snd)).counted columns count).rows := by
  have hrows : unionRows a t.columns (others.map Prod.fst) s =
      .ok ((others.map Prod.snd).flatMap fun u => u.rows.map (u.key t.columns)) s := by
    rw [List.flatMap_map]
    refine unionRows_like fun u hu => ?_
    obtain ⟨hu,hlength,hmem⟩ := hothers u hu
    refine ⟨hu,?_⟩
    rw [Table.rowsLike,if_neg (not_not_intro hlength),
      Table.project_rows (Table.positions_of_mem hmem)]
    simp only [Table.cells_under]
    rfl
  have hunion : s.Makes (union (a :: others.map Prod.fst)) t.columns
      (t.followed (others.map Prod.snd)).rows :=
    .after (table_of_holds ht) (.after hrows (makes_insertTable s ⟨_,_⟩))
  exact hunion.andThen fun united s' hm => makes_counted hm hc

/-- Distinct rows are the first rows of the groups and counts are the sizes of the groups, which are
at least one and add up to the number of rows. Bounds on the counts keep the groups whose size they
admit. The counts of a union are the sums of the counts of its tables, however the columns of the
further tables are ordered. -/
theorem grouping_exact (hs : s.Reached) (ht : s.tables.find? a = some t)
    (hc : ∀ c ∈ columns, c ∈ t.columns) (hcount : count ∉ columns) :
    s.Answers (distinct a columns) (t.representatives columns) ∧
    s.Answers (countBy a columns count) (t.counted columns count) ∧
    (∀ row ∈ t.firsts columns, 1 ≤ t.groupSize columns row) ∧
    ((t.firsts columns).map (t.groupSize columns)).sum = t.rows.length ∧
    (∀ bounds : Annotation, s.Answers
      (do let counts ← countBy a columns count; filter counts (bounds.rowFilter count))
      (t.sized columns count ((t.firsts columns).filter fun row =>
        bounds.admits (t.groupSize columns row)))) ∧
    ∀ others : List (TableId × Table),
      (∀ u ∈ others, s.tables.find? u.1 = some u.2 ∧ u.2.columns.length = t.columns.length ∧
        ∀ c ∈ t.columns, c ∈ u.2.columns) →
      s.Answers (do let united ← union (a :: others.map Prod.fst); countBy united columns count)
        ((t.followed (others.map Prod.snd)).counted columns count) ∧
      (∀ u ∈ others, s.Answers (countBy u.1 columns count) (u.2.counted columns count)) ∧
      ∀ k, ((t.followed (others.map Prod.snd)).counted columns count).countUnder columns count k =
        (t.counted columns count).countUnder columns count k +
          (others.map fun u => (u.2.counted columns count).countUnder columns count k).sum := by
  have hgiven : s.Counted := hs.counted
  refine ⟨(makes_representatives ht hc).answers hgiven,(makes_counted ht hc).answers hgiven,
    fun row hrow => Table.one_le_groupSize hrow,Table.sum_groupSize,?_,?_⟩
  · exact fun bounds => (makes_admitted ht hc hcount bounds).answers hgiven
  · intro others hothers
    refine ⟨(makes_united ht hothers hc).answers hgiven,fun u hu => ?_,fun k => ?_⟩
    · obtain ⟨hu,-,hmem⟩ := hothers u hu
      exact (makes_counted hu fun c hcolumn => hmem c (hc c hcolumn)).answers hgiven
    · have hsum := Table.countUnder_followed hc hcount (others.map Prod.snd) k
      rwa [List.map_map] at hsum

/-- The rows in another order of columns. -/
def halfTurned : Table := ⟨["kind",Column.objectId],
  [[.int 7,.int 1],[.int 7,.int 2],[.null,.int 1],[.null,.int 2]]⟩

/-- Both tables are there. -/
def turned : Store := blanked.called [.distinct ⟨3⟩ ["kind",Column.objectId]]

/-- Rows without values are a group, and counting the table after the turned one counts all rows
twice. -/
theorem grouping_exact_turned :
    turned.Answers (distinct ⟨3⟩ ["kind"]) ⟨["kind"],[[.int 7],[.null]]⟩ ∧
    turned.Answers (countBy ⟨3⟩ ["kind"] "n") ⟨["kind","n"],[[.int 7,.int 2],[.null,.int 2]]⟩ ∧
    turned.Answers (do let counts ← countBy ⟨3⟩ ["kind"] "n"
                       filter counts ((⟨some 3,none⟩ : Annotation).rowFilter "n"))
      ⟨["kind","n"],[]⟩ ∧
    turned.Answers (do let united ← union [⟨3⟩,⟨4⟩]; countBy united ["kind"] "n")
      ⟨["kind","n"],[[.int 7,.int 4],[.null,.int 4]]⟩ := by
  have hreached : turned.Reached :=
    (((Reached.empty.object 1 .empty).object 2 .empty).called _).called _
  have htable : turned.tables.find? ⟨3⟩ = some halfBlank := by decide
  have hcolumns : ∀ c ∈ ["kind"], c ∈ halfBlank.columns := by decide
  have hcount : "n" ∉ ["kind"] := by decide
  have hothers : ∀ u ∈ [(TableId.mk 4,halfTurned)], turned.tables.find? u.1 = some u.2 ∧
      u.2.columns.length = halfBlank.columns.length ∧
      ∀ c ∈ halfBlank.columns, c ∈ u.2.columns := by decide
  obtain ⟨hdistinct,hcounts,-,-,hbounds,hunion⟩ := grouping_exact hreached htable hcolumns hcount
  exact ⟨hdistinct,hcounts,hbounds ⟨some 3,none⟩,(hunion _ hothers).1⟩

end Store

end GraphPattern
