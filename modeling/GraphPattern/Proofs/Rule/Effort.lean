import GraphPattern.Proofs.Rule.Reduction

/-!
# The effort that a query takes

How many reductions are left can be counted beforehand. Every plain vertex has to become a composite
one, unless it is annotated; every edge has to go, every subquery and every constraint; and every
upper bound has to be enforced. A bound is on its way from an annotated subquery to the vertex that
is left of it, and from an annotated vertex to a marker, so wherever it is, it counts once.
-/

namespace GraphPattern

/-- One for an annotation with an upper bound. -/
def upperBounds (bounds : Option Annotation) : Nat :=
  if (bounds.bind Annotation.max).isSome then 1 else 0

namespace Gauge

/-- What is left to be done about an item. -/
def effortOf (i : ItemIdentity) (bounds : Option Annotation) : Nat :=
  match i.kind with
  | .vertex => if bounds.isSome then upperBounds bounds else 1
  | .composite => (if i.origin.isSome then 1 else 0) + upperBounds bounds
  | .edge => 1

/-- The gauge that shows the effort that a query takes. -/
def effort : Gauge := ⟨effortOf,upperBounds⟩

theorem effort_vertex {x : Item} (h : x.kind = .vertex) :
    effort.ofItem x = if x.bounds.isSome then upperBounds x.bounds else 1 := by
  simp only [ofItem,effort,effortOf,Item.identity,h]

theorem effort_composite {x : Item} (h : x.kind = .composite) :
    effort.ofItem x = (if x.isMarked then 1 else 0) + upperBounds x.bounds := by
  cases hp : x.provenance <;> simp [ofItem,effort,effortOf,Item.identity,h,
    ItemClass.bearsProvenance,Item.isMarked,hp]

theorem effort_edge {x : Item} (h : x.kind = .edge) : effort.ofItem x = 1 := by
  simp only [ofItem,effort,effortOf,Item.identity,h]

/-- A settled vertex takes no effort. -/
theorem effort_settled {x : Item} (h : Rule.Settled x) : effort.ofItem x = 0 := by
  rw [effort_composite h.kind,Item.isMarked,h.provenance,h.bounds]
  rfl

/-- About an annotated vertex its upper bound is left. -/
theorem effort_annotated {x : Item} (hv : x.kind ≠ .edge) (hb : x.bounds ≠ none)
    (hm : x.provenance = none) : effort.ofItem x = upperBounds x.bounds := by
  cases hk : x.kind with
  | vertex => rw [effort_vertex hk,if_pos (Option.isSome_iff_ne_none.mpr hb)]
  | composite =>
    rw [effort_composite hk,Item.isMarked,hm]
    exact Nat.zero_add _
  | edge => exact absurd hk hv

end Gauge

namespace Rule

open Query

/-- A vertex is no edge. -/
theorem kind_ne_edge {x : Item} {edges : List ItemId} (h : x.edges? = some edges) :
    x.kind ≠ .edge := by
  intro hk
  have hv : x.isVertex = true := Item.isVertex_iff.mpr ⟨edges,h⟩
  rw [Item.not_isVertex_iff.mpr (Item.kind_edge_iff.mp hk)] at hv
  cases hv

/-- Every reduction takes one off the effort. -/
theorem Reduction.effort_eq {q q' : Query} {rule : Rule} {a : Application} {out : ItemId}
    (h : q.WellFormed) (hr : Reduction q rule a q' out) :
    q'.gauged .effort + 1 = q.gauged .effort := by
  cases hr with
  | @getVertex v x edges c live kind bounds listed owner unmarked =>
    have hw := gauged_withReplaced .effort edges c
      (Item.bare (orderedSet x.names) (.vertex true [])) live
    have hx := Gauge.effort_vertex kind
    have hn : Gauge.effort.ofItem (Item.bare (orderedSet x.names) (.vertex true [])) = 0 := rfl
    rw [bounds] at hx
    simp only [Option.isSome_none,Bool.false_eq_true,if_false] at hx
    omega
  | @absorbSelfLoop v e x y ends c live settled edge ended loop owner bounds unmarked =>
    have hw := gauged_withoutEdge .effort (c:=c) h edge ended
    have hy := Gauge.effort_edge (Item.kind_edge_iff.mpr ⟨ends,ended⟩)
    rw [gauged_mapItem_same .effort (f:=Item.joinNames y.names) fun _ _ => rfl]
    omega
  | @collapseEdge v e u x y w ends edges c d able settled settled' unmarked together =>
    have hw := gauged_withAbsorbed .effort h able
    have hy := Gauge.effort_edge (Item.kind_edge_iff.mpr ⟨ends,able.ended⟩)
    have hu := Gauge.effort_settled settled'
    rw [gauged_mapItem_same .effort (f:=Item.joinNames (w.names ++ y.names)) fun _ _ => rfl]
    omega
  | @absorbAnnotatedVertex v e u x y w ends c d a marker able settled bounds _ _ unmarked' _ _
      marked =>
    have hy := Gauge.effort_edge (Item.kind_edge_iff.mpr ⟨ends,able.ended⟩)
    have hu := Gauge.effort_annotated (kind_ne_edge able.listed) (by rw [bounds]; nofun) unmarked'
    obtain ⟨z,hsame,hm⟩ := gauged_merged .effort h able (filter_ne_alone e) fun z =>
      { z.joinNames (w.names ++ y.names) with provenance := marker }
    have hx₀ := Gauge.effort_settled settled
    have hzw := Gauge.effort_composite (x:={ z.joinNames (w.names ++ y.names) with
      provenance := marker }) (hsame.kind.trans settled.kind)
    -- The upper bound of the annotated vertex is owed by the marker of the kept one.
    have hbound : (if marker.isSome = true then 1 else 0) = upperBounds w.bounds := by
      rw [marked,bounds]
      rfl
    have hnone : upperBounds z.bounds = 0 := by rw [hsame.bounds,settled.bounds]; rfl
    change _ = (if marker.isSome = true then 1 else 0) + upperBounds z.bounds at hzw
    omega
  | @applyUpperLimit v x marker live kind bounds marked =>
    have hm := gauged_mapItem .effort (fun z => { z with provenance := none }) live
    have hx := Gauge.effort_composite kind
    have hn := Gauge.effort_composite (x:={ x with provenance := none }) kind
    rw [Item.isMarked,marked,Option.isSome_some,if_pos rfl] at hx
    rw [Item.isMarked,Option.isSome_none,if_neg Bool.false_ne_true] at hn
    have hsame : upperBounds ({ x with provenance := none } : Item).bounds = upperBounds x.bounds := rfl
    omega
  | @eliminateSubquery v x s p S live settled owner inner parent alone =>
    have hw := gauged_flattened .effort h inner parent
    obtain ⟨z,hz,hk,hp,hz₀⟩ : ∃ z, ((q.withLifted p s S).withoutSubquery p s).item? out = some z ∧
        z.kind = .composite ∧ z.provenance = none ∧ Gauge.effort.ofItem z = 0 :=
      ⟨_,item?_flattened_inside h inner live owner,settled.kind,settled.provenance,
        Gauge.effort_settled ⟨settled.kind,settled.bounds,settled.provenance⟩⟩
    have hm := gauged_mapItem .effort (fun z => { z with bounds := S.bounds }) hz
    -- The upper bound of the subquery is owed by the vertex that is left of it.
    have hn : Gauge.effort.ofItem { z with bounds := S.bounds } = upperBounds S.bounds := by
      rw [Gauge.effort_composite (x:={ z with bounds := S.bounds }) hk,Item.isMarked,hp]
      exact Nat.zero_add _
    have hbound : Gauge.effort.bounds S.bounds = upperBounds S.bounds := rfl
    omega
  | @processConstraint v x k found c C rest live settled declared bounds inside owner first _ =>
    exact gauged_withoutFirst .effort owner first

/-- A consolidated query is its root with one settled vertex. -/
theorem consolidated_iff {q : Query} : q.isConsolidated = true ↔ ∃ R v x,
    q.container? .root = some R ∧ R.vertices = [v] ∧ R.edges = [] ∧ R.subqueries = [] ∧
      R.constraints = [] ∧ q.item? v = some x ∧ Settled x := by
  rw [isConsolidated]
  cases hR : q.container? .root with
  | none => simp
  | some R =>
    have hone : ∀ v, R.vertices = [v] → ((R.edges.isEmpty && R.subqueries.isEmpty &&
        R.constraints.isEmpty && q.itemSatisfies isSettled v) = true ↔
          R.edges = [] ∧ R.subqueries = [] ∧ R.constraints = [] ∧
            ∃ x, q.item? v = some x ∧ Settled x) := by
      intro v _
      simp only [Bool.and_eq_true,List.isEmpty_iff,itemSatisfies,Option.any_eq_true,isSettled_iff,
        and_assoc]
    simp only
    split
    · rename_i v hv
      rw [show (fun item : Item => item.isComposite && !item.isAnnotated && !item.isMarked) =
        isSettled from rfl,hone v hv]
      constructor
      · rintro ⟨he,hs,hk,x,hx,hset⟩
        exact ⟨R,v,x,rfl,hv,he,hs,hk,hx,hset⟩
      · rintro ⟨R',u,x,hR',hu,he,hs,hk,hx,hset⟩
        cases hR'
        rw [hv] at hu
        cases hu
        exact ⟨he,hs,hk,x,hx,hset⟩
    · rename_i hne
      refine ⟨fun h => absurd h Bool.false_ne_true,?_⟩
      rintro ⟨R',u,x,hR',hu,-⟩
      cases hR'
      exact absurd hu (hne u)

/-- What a gauge shows of a consolidated query is what it shows of its vertex and of its root. -/
theorem gauged_consolidated {q : Query} (g : Gauge) (h : q.WellFormed)
    (hc : q.isConsolidated = true) :
    ∃ x, Settled x ∧ q.gauged g = g.ofItem x + 1 + g.bounds none := by
  obtain ⟨R,v,x,hR,hv,he,hs,hk,hx,hset⟩ := consolidated_iff.mp hc
  have hids : q.containerIds = [.root] := by
    obtain ⟨n,hn⟩ := Nat.exists_eq_add_of_lt (index_lt_of_container? hR)
    rw [containerIds,hn,containersBelow,hR]
    simp only [hs,List.flatMap_nil]
  have hin : q.containersIn .whole = [R] := by
    rw [containersIn,containerIdsIn,hids,List.filterMap_cons,hR]
    rfl
  have hbounds : R.bounds = none := by
    obtain ⟨R',hR',hp⟩ := h.nested.root
    rw [hR] at hR'
    cases hR'
    cases R with
    | mk kind => cases kind <;> first | rfl | cases hp
  refine ⟨x,hset,?_⟩
  rw [gauged_eq g h,vertices,edges,subqueries,constraints,hin,hids]
  simp only [List.flatMap_cons,List.flatMap_nil,List.append_nil,hv,he,hk,List.map_cons,List.map_nil,
    List.sum_cons,List.sum_nil,gaugedAt,hx,Option.elim_some,List.drop_one,List.tail_cons,
    List.length_nil,hbounds]
  omega

/-- A consolidated query takes no effort. -/
theorem effort_consolidated {q : Query} (h : q.WellFormed) (hc : q.isConsolidated = true) :
    q.gauged .effort = 1 := by
  obtain ⟨x,hx,hq⟩ := gauged_consolidated .effort h hc
  rw [hq,Gauge.effort_settled hx]
  rfl

end Rule

namespace Query

variable {q : Query}

/-- How many of the vertices, edges or subqueries listed have an annotation with an upper bound. -/
theorem sum_upperBounds {α : Type} (l : List α) (bounds : α → Option Annotation) :
    (l.map fun a => upperBounds (bounds a)).sum =
      (l.filter fun a => ((bounds a).bind Annotation.max).isSome).length := by
  induction l with
  | nil => rfl
  | cons a l ih =>
    rw [List.map_cons,List.sum_cons,List.filter_cons,upperBounds,ih]
    split
    · rw [List.length_cons,Nat.add_comm]
    · rw [Nat.zero_add]

/-- What vertices take: one for each that is not annotated and one for every upper bound. -/
theorem sum_unannotated {α : Type} (l : List α) (bounds : α → Option Annotation) :
    (l.map fun a => if (bounds a).isSome then upperBounds (bounds a) else 1).sum =
      (l.filter fun a => (bounds a).isNone).length +
        (l.filter fun a => ((bounds a).bind Annotation.max).isSome).length := by
  induction l with
  | nil => rfl
  | cons a l ih =>
    rw [List.map_cons,List.sum_cons,List.filter_cons,List.filter_cons,ih]
    cases bounds a with
    | none =>
      simp only [Option.isSome_none,Bool.false_eq_true,if_false,Option.isNone_none,if_true,
        Option.bind_none,List.length_cons]
      omega
    | some b =>
      simp only [Option.isSome_some,if_true,Option.isNone_some,Bool.false_eq_true,if_false,
        upperBounds]
      split
      · rw [List.length_cons]
        omega
      · omega

/-- The annotation of the item of a number. -/
def itemBounds (q : Query) (i : ItemId) : Option Annotation := (q.item? i).bind Item.bounds

/-- The annotation of the subquery of a number. -/
def subqueryBounds (q : Query) (c : ContainerId) : Option Annotation :=
  (q.container? c).bind Container.bounds

/-- The effort that a query without composite vertices takes: one for every vertex that is not
annotated, every edge, every subquery, every constraint and every upper bound, and one that is never
used up. -/
theorem effort_plain (h : q.WellFormed) (hp : ∀ {i x}, q.item? i = some x → x.kind ≠ .composite) :
    q.gauged .effort = ((q.vertices .whole).filter fun v => (q.itemBounds v).isNone).length +
      (q.edges .whole).length + (q.subqueries .whole).length + (q.constraints .whole).length +
      (((q.vertices .whole).filter fun v => ((q.itemBounds v).bind Annotation.max).isSome).length +
        ((q.subqueries .whole).filter fun c =>
          ((q.subqueryBounds c).bind Annotation.max).isSome).length) + 1 := by
  have hvertices : ((q.vertices .whole).map (q.gaugedAt .effort)).sum =
      ((q.vertices .whole).filter fun v => (q.itemBounds v).isNone).length +
        ((q.vertices .whole).filter fun v =>
          ((q.itemBounds v).bind Annotation.max).isSome).length := by
    rw [← sum_unannotated,List.map_congr_left fun i hi => ?_]
    obtain ⟨x,hx,hv⟩ := h.mem_vertices.mp hi
    rw [gaugedAt,hx,Option.elim_some,Gauge.effort_vertex (Item.kind_of_isVertex hv (hp hx)),
      itemBounds,hx,Option.bind_some]
  have hedges : ((q.edges .whole).map (q.gaugedAt .effort)).sum = (q.edges .whole).length := by
    rw [List.map_congr_left (g:=fun _ => 1) fun i hi => ?_]
    · simp
    · obtain ⟨x,hx,hv⟩ := h.mem_edges.mp hi
      rw [gaugedAt,hx]
      exact Gauge.effort_edge (Item.kind_edge_iff.mpr (Item.not_isVertex_iff.mp hv))
  -- The root is not annotated, and all other containers are subqueries.
  have hbounds : ((q.containersIn .whole).map fun C => Gauge.effort.bounds C.bounds).sum =
      ((q.subqueries .whole).filter fun c =>
        ((q.subqueryBounds c).bind Annotation.max).isSome).length := by
    obtain ⟨R,hR,hroot⟩ := h.nested.root
    have hnone : R.bounds = none := by
      cases R with
      | mk kind => cases kind <;> first | rfl | cases hroot
    have hids : q.containerIds = .root :: (q.subqueries .whole) := by
      obtain ⟨n,hn⟩ := Nat.exists_eq_add_of_lt (index_lt_of_container? hR)
      rw [subqueries,containerIds,hn,containersBelow,hR]
      rfl
    have hall : ∀ l : List ContainerId, (∀ c ∈ l, (q.container? c).isSome = true) →
        ((l.filterMap q.container?).map fun C => upperBounds C.bounds).sum =
          (l.map fun c => upperBounds (q.subqueryBounds c)).sum := by
      intro l
      induction l with
      | nil => exact fun _ => rfl
      | cons c l ih =>
        intro hl
        obtain ⟨C,hC⟩ := Option.isSome_iff_exists.mp (hl c List.mem_cons_self)
        rw [List.filterMap_cons,hC,List.map_cons,List.sum_cons,List.map_cons,List.sum_cons,
          ih fun d hd => hl d (List.mem_cons_of_mem _ hd),subqueryBounds,hC,Option.bind_some]
    have hsum := hall q.containerIds fun c hc => h.nested.mem_containerIds.mp hc
    rw [← sum_upperBounds]
    refine hsum.trans ?_
    rw [hids,List.map_cons,List.sum_cons,subqueryBounds,hR,Option.bind_some,hnone]
    exact Nat.zero_add _
  rw [gauged_eq .effort h,hvertices,hedges,hbounds]
  omega

end Query

end GraphPattern
