import GraphPattern.Proofs.Workspace
import Mathlib.Data.Int.Order.Basic

/-!
# Rows of matches

The operations that rules combine, on rows by themselves, and the tables that the steps of the
library make of them. A row of matches holds an item, the number of a match and a name; a row of
found links holds the matches at both ends and the link.
-/

namespace GraphPattern

open Step Table

namespace Matches

/-- The rows of one item of the query. -/
def named (name : String) (rows : Rows) : Rows := rows.filter fun row => cell row 2 = .string name

/-- The first three cells of every row. -/
def laid (rows : Rows) : Rows := rows.map fun row => cells row [0,1,2]

/-- The links that lead from the first rows to the second ones, by the positions of their ends. -/
def along (near far : Nat) (sameMatch : Bool) (links sources targets : Rows) : Rows :=
  joinRows (if sameMatch then [2,0] else [2]) (if sameMatch then [0,1] else [0])
    [(.left,0),(.right,1),(.left,1)]
    (joinRows [0] [near] [(.left,1),(.right,0),(.right,far)] sources links) targets

/-- The links that join the first rows to the second ones, in either direction unless the direction
matters. -/
def linked (directed sameMatch : Bool) (links sources targets : Rows) : Rows :=
  let forward := along 1 2 sameMatch links sources targets
  if directed then forward
  else distinctRows [0,1,2] (forward ++ laid (along 2 1 sameMatch links sources targets))

/-- Whether a cell holds a number within bounds. -/
def within (bounds : Annotation) (n : Value) : Bool :=
  (bounds.min.all fun least => Comparison.ge.holds n (.int least)) &&
    bounds.max.all fun most => Comparison.le.holds n (.int most)

/-- The pairs of matches that are joined by a number of links within bounds. -/
def joined (bounds : Annotation) (found : Rows) : Rows :=
  distinctRows [0,1] ((countRows [0,1] found).filter fun row => within bounds (cell row 2))

/-- Rows under a name. -/
def labelled (name : String) (rows : Rows) : Rows := rows.map fun row => row ++ [.string name]

/-- A match for every object that satisfies a condition. -/
def ofObjects (s : Store) (condition : Option Condition) (name : String) : Rows :=
  labelled name (numberedRows (s.objectRows condition))

/-- The rows of the matches that are kept. -/
def kept (rows remaining : Rows) : Rows :=
  joinRows [1] [0] [(.left,0),(.left,1),(.left,2)] rows remaining

/-- The rows of old matches as rows of the new ones that they are paired with. -/
def moved (old new : Nat) (rows pairs : Rows) : Rows :=
  joinRows [1] [old] [(.left,0),(.right,new),(.left,2)] rows pairs

end Matches

open Matches

namespace Comparison

theorem ge_holds_int (a b : Int) : ge.holds (.int a) (.int b) = decide (b ≤ a) := by
  rw [Bool.eq_iff_iff,decide_eq_true_eq,← not_lt,← compare_lt_iff_lt]
  change (some (compare a b) = some .gt || some (compare a b) = some .eq) = true ↔ _
  cases compare a b <;> simp

theorem le_holds_int (a b : Int) : le.holds (.int a) (.int b) = decide (a ≤ b) := by
  rw [Bool.eq_iff_iff,decide_eq_true_eq,← not_lt,← compare_gt_iff_gt]
  change (some (compare a b) = some .lt || some (compare a b) = some .eq) = true ↔ _
  cases compare a b <;> simp

theorem gt_holds_int (a b : Int) : gt.holds (.int a) (.int b) = decide (b < a) := by
  rw [Bool.eq_iff_iff,decide_eq_true_eq,← compare_gt_iff_gt]
  change decide (some (compare a b) = some .gt) = true ↔ _
  cases compare a b <;> simp

theorem eq_holds_string (v : Value) (name : String) :
    eq.holds v (.string name) = decide (v = .string name) := by
  cases v with
  | string s => simp [holds,admitsOrdering,Value.compare?]
  | null | bool _ | int _ | float _ => simp [holds,admitsOrdering,Value.compare?]

end Comparison

theorem Matches.within_eq_admits (bounds : Annotation) (n : Nat) :
    within bounds (.int n) = bounds.admits n := by
  have hge : ∀ a b : Nat, Comparison.ge.holds (.int a) (.int b) = decide (b ≤ a) := fun a b => by
    rw [Comparison.ge_holds_int]
    simp
  have hle : ∀ a b : Nat, Comparison.le.holds (.int a) (.int b) = decide (a ≤ b) := fun a b => by
    rw [Comparison.le_holds_int]
    simp
  obtain ⟨min,max⟩ := bounds
  cases min <;> cases max <;> simp [within, Annotation.admits,hge,hle]

/-- The bounds as a condition on rows are the bounds on the cell in the column. -/
theorem Table.satisfies_rowFilter {t : Table} {id : TableId} {column : String} {n : Nat}
    (bounds : Annotation) (h : t.position id column = .ok n) (row : List Value) :
    t.satisfies id row (bounds.rowFilter column) = .ok (within bounds (cell row n)) := by
  have hc : ∀ operator m, t.satisfies id row (.columnValue column operator m) =
      .ok (operator.holds (cell row n) m) := fun operator m => satisfies_columnValue operator m h
  obtain ⟨min,max⟩ := bounds
  cases min with
  | none =>
    cases max with
    | none => exact satisfies_all_nil
    | some most =>
      have h := satisfies_all_cons (hc .le (.int most)) satisfies_all_nil
      rwa [Bool.and_true] at h
  | some least =>
    cases max with
    | none => exact satisfies_all_cons (hc .ge (.int least)) satisfies_all_nil
    | some most =>
      have h := satisfies_all_cons (hc .ge (.int least))
        (satisfies_all_cons (hc .le (.int most)) satisfies_all_nil)
      rwa [Bool.and_true] at h

namespace Store

variable {s : Store} {id a b : TableId} {cols : List String} {rows rows' : Rows}

theorem makes_objectMatches (s : Store) (condition : Option Condition) (name : String) :
    s.Makes (objectMatches condition name) Column.matched (ofObjects s condition name) := by
  refine makes_guarded (x:=matchingObjects condition)
    (.after (get_apply s) (makes_insertTable s _)) fun i s' h => ?_
  have hr : Outcome (renameColumn i Column.objectId Column.itemId) s'
      (fun _ s₁ => s'.Alters i [Column.itemId] (s.objectRows condition) s₁) False :=
    alters_renameColumn h rfl
  refine hr.bind fun _ s₁ h₁ => ?_
  refine (alters_addRowNumber h₁.holds (by decide)).bind fun _ s₂ h₂ => ?_
  exact (alters_addConstant h₂.holds (by decide)).imp (fun _ s₃ h₃ => (h₁.trans h₂).trans h₃) id

theorem makes_edgeMatches {column name : String} {l m : Nat} (h : s.Holds a cols rows)
    (hp : (Table.mk cols rows).positions a [Column.linkId,column] = .ok [l,m])
    (hc : column ∈ [Column.newMatch,Column.sourceMatch,Column.targetMatch]) :
    s.Makes (edgeMatches a column name) Column.matched
      (labelled name (distinctRows [l,m] rows)) := by
  refine makes_guarded (x:=distinct a [Column.linkId,column]) (makes_distinct h hp) fun i s' h => ?_
  have hr : Outcome (renameColumn i Column.linkId Column.itemId) s'
      (fun _ s₁ => s'.Alters i [Column.itemId,column] (distinctRows [l,m] rows) s₁) False := by
    simp only [List.mem_cons,List.not_mem_nil,or_false] at hc
    rcases hc with rfl|rfl|rfl
    all_goals exact alters_renameColumn h rfl
  refine hr.bind fun _ s₁ h₁ => ?_
  have hr : Outcome (renameColumn i column Column.subgraph) s₁
      (fun _ s₂ => s₁.Alters i [Column.itemId,Column.subgraph] (distinctRows [l,m] rows) s₂)
      False := by
    simp only [List.mem_cons,List.not_mem_nil,or_false] at hc
    rcases hc with rfl|rfl|rfl
    all_goals exact alters_renameColumn h₁.holds rfl
  refine hr.bind fun _ s₂ h₂ => ?_
  exact (alters_addConstant h₂.holds (by decide)).imp (fun _ s₃ h₃ => (h₁.trans h₂).trans h₃) id

theorem makes_keepMatches {c : String} (hr : s.Holds a Column.matched rows)
    (hk : s.Holds b (c :: cols) rows') :
    s.Makes (keepMatches a b c) Column.matched (kept rows rows') :=
  makes_join hr hk rfl (by simp [positions,position,List.findIdx?_cons]) rfl

theorem makes_moveMatches {old new : String} {m n : Nat} (hr : s.Holds a Column.matched rows)
    (hp : s.Holds b cols rows') (ho : (Table.mk cols rows').position b old = .ok m)
    (hn : (Table.mk cols rows').position b new = .ok n) :
    s.Makes (moveMatches a b old new) Column.matched (moved m n rows rows') :=
  makes_join (l:=[1]) (r:=[m]) (p:=[(.left,0),(.right,n),(.left,2)]) hr hp rfl
    (by simp [positions,ho]) (by simp [pick,JoinColumn.left,JoinColumn.right,hn]; rfl)

theorem makes_unionTwo (ha : s.Holds a Column.matched rows) (hb : s.Holds b Column.matched rows') :
    s.Makes (union [a,b]) Column.matched (rows ++ laid rows') := by
  have h := makes_union (t:=[(b,rows')]) (p:=[0,1,2]) ha (by simpa using hb) (by simp; rfl)
  simpa [laid] using h

theorem makes_unionThree {c : TableId} {rows'' : Rows} (ha : s.Holds a Column.matched rows)
    (hb : s.Holds b Column.matched rows') (hc : s.Holds c Column.matched rows'') :
    s.Makes (union [a,b,c]) Column.matched (rows ++ (laid rows' ++ laid rows'')) := by
  have h := makes_union (t:=[(b,rows'),(c,rows'')]) (p:=[0,1,2]) ha (by simpa using ⟨hb,hc⟩)
    (by simp; exact ⟨rfl,rfl⟩)
  simpa [laid] using h

end Store

namespace Workspace

variable {w : Workspace} {a b : TableId} {S T : Rows}

theorem makes_rowsNamed (name : String) (ha : w.Has a Column.matched S) :
    w.Makes (rowsNamed a name) Column.matched (named name S) := by
  refine makes_temporary (Store.makes_filter ha.holds fun row => ?_)
  rw [← Comparison.eq_holds_string]
  rfl

theorem linkRows_congr {s s' : Store} (h : s.SameData s') (condition : Option Condition) :
    s'.linkRows condition = s.linkRows condition := by
  rw [Store.linkRows,Store.linkRows,h.links]

theorem makes_linksAlong {links : TableId} {L : Rows} {near far : String} {m n : Nat}
    (sameMatch : Bool)
    (hl : w.Has links [Column.linkId,Column.linkSource,Column.linkTarget] L)
    (ha : w.Has a Column.matched S) (hb : w.Has b Column.matched T)
    (hn : near = Column.linkSource ∧ far = Column.linkTarget ∧ m = 1 ∧ n = 2 ∨
      near = Column.linkTarget ∧ far = Column.linkSource ∧ m = 2 ∧ n = 1) :
    w.Makes (linksAlong links a b near far sameMatch)
      [Column.sourceMatch,Column.targetMatch,Column.linkId] (along m n sameMatch L S T) := by
  have hfirst : w.store.Makes (Store.join a links [(Column.itemId,near)]
      [.left Column.subgraph Column.sourceMatch,.right Column.linkId Column.linkId,
        .right far Column.farObject]) [Column.sourceMatch,Column.linkId,Column.farObject]
      (joinRows [0] [m] [(.left,1),(.right,0),(.right,n)] S L) := by
    rcases hn with ⟨rfl,rfl,rfl,rfl⟩|⟨rfl,rfl,rfl,rfl⟩
    · exact Store.makes_join ha.holds hl.holds rfl rfl rfl
    · exact Store.makes_join ha.holds hl.holds rfl rfl rfl
  refine (makes_temporary hfirst).bind fun i w₁ h₁ => ?_
  have hb₁ := h₁.scratches.has hb
  cases sameMatch with
  | false =>
    exact (makes_temporary (Store.makes_join h₁.has.holds hb₁.holds rfl rfl rfl)).imp
      (fun _ _ h₂ => h₁.scratches.made h₂) False.elim
  | true =>
    exact (makes_temporary (Store.makes_join h₁.has.holds hb₁.holds rfl rfl rfl)).imp
      (fun _ _ h₂ => h₁.scratches.made h₂) False.elim

/-- The links that are found join the rows in the direction of the edge, or in either direction. -/
theorem makes_linkMatches (edge : Item) (ends : EdgeEnds) (sameMatch : Bool)
    (ha : w.Has a Column.matched S) (hb : w.Has b Column.matched T) :
    w.Makes (linkMatches edge ends a b sameMatch)
      [Column.sourceMatch,Column.targetMatch,Column.linkId]
      (linked ends.directed sameMatch (w.store.linkRows edge.condition) S T) := by
  have hlinks : w.store.Makes (Store.matchingLinks edge.condition)
      [Column.linkId,Column.linkSource,Column.linkTarget] (w.store.linkRows edge.condition) :=
    .after (get_apply _) (Store.makes_insertTable w.store ⟨_,_⟩)
  refine (makes_temporary hlinks).bind fun i w₁ h₁ => ?_
  refine (makes_linksAlong sameMatch h₁.has (h₁.scratches.has ha) (h₁.scratches.has hb)
    (.inl ⟨rfl,rfl,rfl,rfl⟩)).bind fun j w₂ h₂ => ?_
  have h₂' := h₁.scratches.trans h₂.scratches
  cases hd : ends.directed with
  | true => exact .of_ok rfl (h₁.scratches.made h₂)
  | false =>
    refine (makes_linksAlong sameMatch (h₂.scratches.has h₁.has) (h₂'.has ha) (h₂'.has hb)
      (.inr ⟨rfl,rfl,rfl,rfl⟩)).bind fun k w₃ h₃ => ?_
    have h₃' := h₂'.trans h₃.scratches
    have hj := h₃.scratches.has h₂.has
    have hunion := Store.makes_union (t:=[(k,_)]) (p:=[0,1,2]) hj.holds
      (by simpa using h₃.has.holds) (by simp; rfl)
    refine (makes_temporary hunion).bind fun u w₄ h₄ => ?_
    have h₄' := h₃'.trans h₄.scratches
    refine (makes_temporary (Store.makes_distinct h₄.has.holds rfl)).imp
      (fun v w₅ h₅ => ?_) False.elim
    simpa [linked,laid] using h₄'.made h₅

/-- Work goes on with the links that are found between the objects under the names of the ends. -/
theorem outcome_found {α : Type} (edge : Item) (ends : EdgeEnds) (sameMatch : Bool)
    {k : TableId → WorkStep α} {P : α → Workspace → Prop} {F : Prop}
    (ha : w.Has a Column.matched S) (hb : w.Has b Column.matched T)
    (hk : ∀ found w', w.Made found [Column.sourceMatch,Column.targetMatch,Column.linkId]
      (linked ends.directed sameMatch (w.store.linkRows edge.condition) (named ends.sourceName S)
        (named ends.targetName T)) w' → Outcome (k found) w' P F) :
    Outcome (do
      let sources ← rowsNamed a ends.sourceName
      let targets ← rowsNamed b ends.targetName
      let found ← linkMatches edge ends sources targets sameMatch
      k found) w P F := by
  refine (makes_rowsNamed ends.sourceName ha).bind fun i w₁ h₁ => ?_
  refine (makes_rowsNamed ends.targetName (h₁.scratches.has hb)).bind fun j w₂ h₂ => ?_
  have h₂' := h₁.scratches.trans h₂.scratches
  refine (makes_linkMatches edge ends sameMatch (h₂.scratches.has h₁.has) h₂.has).bind
    fun found w₃ h₃ => ?_
  rw [linkRows_congr h₂'.store.data] at h₃
  exact hk found w₃ (h₂'.made h₃)

/-- The bounds on the number of links are those that the rows of counts are filtered by. -/
theorem makes_joinedPairs (bounds : Annotation)
    (ha : w.Has a [Column.sourceMatch,Column.targetMatch,Column.linkId] S) :
    w.Makes (joinedPairs a bounds) [Column.sourceMatch,Column.targetMatch] (joined bounds S) := by
  refine (makes_temporary (Store.makes_countBy ha.holds rfl)).bind
    fun i w₁ h₁ => ?_
  refine (makes_temporary (Store.makes_filter h₁.has.holds
    (satisfies_rowFilter bounds rfl))).bind fun j w₂ h₂ => ?_
  have h₂' := h₁.scratches.trans h₂.scratches
  exact (makes_temporary (Store.makes_distinct h₂.has.holds rfl)).imp
    (fun _ _ h₃ => h₂'.made h₃) False.elim

end Workspace

end GraphPattern
