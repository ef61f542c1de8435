import GraphPattern.Proofs.Query.Gauge
import GraphPattern.Rule.BuiltIn
import Mathlib.Algebra.Order.BigOperators.Group.List
import Mathlib.Algebra.Order.Group.Nat

/-!
# Reductions

What the rules of the library do to a query, as a relation: one case for each rule, with what the
rule has checked and the query that comes out. Every reduction lowers the weight.
-/

/-!
## The weight of a query

Every plain vertex weighs one, every edge two, every marker one, every container one and every
constraint one. Composite vertices weigh nothing by themselves. The weight can be read off the
content: queries with the same content weigh the same.
-/

namespace GraphPattern

/-- What an item adds to the weight of a content: its class and its marker. -/
def ItemIdentity.weight (i : ItemIdentity) : Nat :=
  (match i.kind with
    | .vertex => 1
    | .composite => 0
    | .edge => 2) + if i.origin.isSome then 1 else 0

namespace Gauge

/-- The gauge that shows weights. -/
def weight : Gauge := ⟨fun i _ => i.weight,fun _ => 0⟩

theorem visible_weight : weight.Visible := ⟨fun _ _ => rfl,fun _ => rfl⟩

theorem weight_vertex {x : Item} (h : x.kind = .vertex) : weight.ofItem x = 1 := by
  simp [ofItem,weight,ItemIdentity.weight,Item.identity,h,ItemClass.bearsProvenance]

theorem weight_composite {x : Item} (h : x.kind = .composite) :
    weight.ofItem x = if x.isMarked then 1 else 0 := by
  cases hp : x.provenance <;> simp [ofItem,weight,ItemIdentity.weight,Item.identity,h,
    ItemClass.bearsProvenance,Item.isMarked,hp]

theorem weight_edge {x : Item} (h : x.kind = .edge) :
    weight.ofItem x = 2 + if x.isMarked then 1 else 0 := by
  cases hp : x.provenance <;> simp [ofItem,weight,ItemIdentity.weight,Item.identity,h,
    ItemClass.bearsProvenance,Item.isMarked,hp]

end Gauge

namespace Query

variable {q : Query}

/-- The weight of a query. -/
def weight (q : Query) : Nat := q.gauged .weight

/-- The weight of a query can be read off its content. -/
theorem weight_content (h : q.Nested) : q.content.gauged .weight = q.weight :=
  gauged_content h Gauge.visible_weight

/-- The weight item by item. -/
theorem weight_eq_sum (h : q.WellFormed) : q.weight =
    ((q.vertices .whole).map (q.gaugedAt .weight)).sum +
      ((q.edges .whole).map (q.gaugedAt .weight)).sum + (q.subqueries .whole).length +
      (q.constraints .whole).length + 1 := by
  have hbounds : ((q.containersIn .whole).map fun C => Gauge.weight.bounds C.bounds).sum = 0 := by
    simp [Gauge.weight]
  rw [weight,gauged_eq .weight h,hbounds]
  omega

/-- A query without composite vertices and markers weighs one for every vertex, two for every edge,
one for every subquery, one for every constraint, and one for its root. -/
theorem weight_plain (h : q.WellFormed) (hp : ∀ {i x}, q.item? i = some x →
    x.kind ≠ .composite ∧ x.provenance = none) : q.weight = (q.vertices .whole).length +
      2 * (q.edges .whole).length + (q.subqueries .whole).length +
      (q.constraints .whole).length + 1 := by
  have hvertices : ((q.vertices .whole).map (q.gaugedAt .weight)).sum =
      (q.vertices .whole).length := by
    rw [List.map_congr_left (g:=fun _ => 1) fun i hi => ?_]
    · simp
    · obtain ⟨x,hx,hv⟩ := h.mem_vertices.mp hi
      rw [gaugedAt,hx]
      exact Gauge.weight_vertex (Item.kind_of_isVertex hv (hp hx).1)
  have hedges : ((q.edges .whole).map (q.gaugedAt .weight)).sum =
      2 * (q.edges .whole).length := by
    rw [List.map_congr_left (g:=fun _ => 2) fun i hi => ?_]
    · simp [Nat.mul_comm]
    · obtain ⟨x,hx,hv⟩ := h.mem_edges.mp hi
      have hk := Item.kind_edge_iff.mpr (Item.not_isVertex_iff.mp hv)
      rw [gaugedAt,hx,Option.elim_some,Gauge.weight_edge hk,Item.isMarked,(hp hx).2]
      rfl
  rw [weight_eq_sum h,hvertices,hedges]

/-- A query whose edges are not marked weighs no more than that. -/
theorem weight_le (h : q.WellFormed) (hp : ∀ {e y}, q.item? e = some y → y.isVertex = false →
    y.provenance = none) : q.weight ≤ (q.vertices .whole).length +
      2 * (q.edges .whole).length + (q.subqueries .whole).length +
      (q.constraints .whole).length + 1 := by
  have hvertices : ((q.vertices .whole).map (q.gaugedAt .weight)).sum ≤
      (q.vertices .whole).length := by
    refine (List.sum_le_card_nsmul _ 1 fun n hn => ?_).trans (by simp)
    obtain ⟨i,hi,rfl⟩ := List.mem_map.mp hn
    obtain ⟨x,hx,hv⟩ := h.mem_vertices.mp hi
    rw [gaugedAt,hx,Option.elim_some]
    by_cases hk : x.kind = .composite
    · rw [Gauge.weight_composite hk]
      split <;> omega
    · exact Nat.le_of_eq (Gauge.weight_vertex (Item.kind_of_isVertex hv hk))
  have hedges : ((q.edges .whole).map (q.gaugedAt .weight)).sum ≤
      2 * (q.edges .whole).length := by
    refine (List.sum_le_card_nsmul _ 2 fun n hn => ?_).trans (by simp [Nat.mul_comm])
    obtain ⟨e,he,rfl⟩ := List.mem_map.mp hn
    obtain ⟨y,hy,hv⟩ := h.mem_edges.mp he
    have hk := Item.kind_edge_iff.mpr (Item.not_isVertex_iff.mp hv)
    rw [gaugedAt,hy,Option.elim_some,Gauge.weight_edge hk,Item.isMarked,hp hy hv]
    rfl
  rw [weight_eq_sum h]
  omega

end Query

end GraphPattern

/-! ## The reductions -/

namespace GraphPattern

/-- A query that the rules of the library can work on. -/
structure Query.Reducible (q : Query) : Prop where
  /-- It is well formed. -/
  wellFormed : q.WellFormed
  /-- No plain vertex carries a marker. -/
  unmarked : ∀ {i x}, q.item? i = some x → x.kind = .vertex → x.provenance = none
  /-- The name written for a known first end is a name of the vertex there. -/
  source : ∀ {e y ends v}, q.item? e = some y → y.ends? = some ends → ends.source = some v →
    ∃ x, q.item? v = some x ∧ ends.sourceName ∈ x.names
  /-- The name written for a known second end is a name of the vertex there. -/
  target : ∀ {e y ends v}, q.item? e = some y → y.ends? = some ends → ends.target = some v →
    ∃ x, q.item? v = some x ∧ ends.targetName ∈ x.names

/-- A query that plans can be made of. -/
structure Query.Plannable (q : Query) : Prop extends q.Reducible where
  /-- Every constraint is found again. -/
  comparable : ∀ {c C k}, q.container? c = some C → k ∈ C.constraints → k.sameRelation k = true

namespace Rule

open Query

/-- An item that a rule may start from: a composite vertex that owes nothing. -/
structure Settled (x : Item) : Prop where
  /-- It is a composite vertex. -/
  kind : x.kind = .composite
  /-- It is not annotated. -/
  bounds : x.bounds = none
  /-- It is not marked. -/
  provenance : x.provenance = none

theorem isSettled_iff {x : Item} : isSettled x = true ↔ Settled x := by
  simp only [isSettled,Bool.and_eq_true,Bool.not_eq_true',Item.isComposite,Item.isAnnotated,
    Item.isMarked,decide_eq_true_eq,Option.isSome_eq_false_iff,Option.isNone_iff_eq_none]
  exact ⟨fun h => ⟨h.1.1,h.1.2,h.2⟩,fun h => ⟨⟨h.kind,h.bounds⟩,h.provenance⟩⟩

/-- What each rule does, and about what. -/
inductive Reduction (q : Query) : Rule → Application → Query → ItemId → Prop
  /-- A plain vertex becomes a composite one. -/
  | getVertex {v : ItemId} {x : Item} {edges : List ItemId} {c : ContainerId}
    (live : q.item? v = some x) (kind : x.kind = .vertex) (bounds : x.bounds = none)
    (listed : x.edges? = some edges) (owner : x.container = some c)
    (unmarked : ∀ e ∈ edges, ∀ y, q.item? e = some y → y.provenance = none) :
    Reduction q getVertex ⟨[v],[x.joinedName],none⟩
      (q.withReplaced c v edges (Item.bare (orderedSet x.names) (.vertex true []))) q.nextItem
  /-- A self-loop becomes a part of its vertex. -/
  | absorbSelfLoop {v e : ItemId} {x y : Item} {ends : EdgeEnds} {c : ContainerId}
    (live : q.item? v = some x) (settled : Settled x) (edge : q.item? e = some y)
    (ended : y.ends? = some ends) (loop : ends.source = some v ∧ ends.target = some v)
    (owner : y.container = some c) (bounds : y.bounds = none) (unmarked : y.provenance = none) :
    Reduction q absorbSelfLoop ⟨[v,e],[x.joinedName,y.joinedName],none⟩
      ((q.withoutEdge c e ends).mapItem v (Item.joinNames y.names)) v
  /-- Two composite vertices become one. -/
  | collapseEdge {v e u : ItemId} {x y w : Item} {ends : EdgeEnds} {edges : List ItemId}
    {c d : ContainerId} (able : q.Absorbable e u v y w x ends edges c d) (settled : Settled x)
    (settled' : Settled w) (unmarked : y.provenance = none) (together : x.container = w.container) :
    Reduction q collapseEdge ⟨[v,e,u],[x.joinedName,y.joinedName,w.joinedName],none⟩
      ((q.withAbsorbed c d e ends u v (edges.filter (· ≠ e))).mapItem v
        (Item.joinNames (w.names ++ y.names))) v
  /-- An annotated vertex becomes a part of a composite one. -/
  | absorbAnnotatedVertex {v e u : ItemId} {x y w : Item} {ends : EdgeEnds} {c d : ContainerId}
    {a : Annotation} {marker : Option Provenance}
    (able : q.Absorbable e u v y w x ends [e] c d) (settled : Settled x)
    (bounds : w.bounds = some a) (annotated : y.bounds ≠ none) (unmarked : y.provenance = none)
    (unmarked' : w.provenance = none) (together : x.container = w.container)
    (marking : marker = a.max.bind fun max =>
      (ends.nameAmong? w.names).map fun name => ⟨w.joinedName,name,some max⟩)
    (marked : marker.isSome = a.max.isSome) :
    Reduction q absorbAnnotatedVertex ⟨[v,e,u],[x.joinedName,y.joinedName,w.joinedName],none⟩
      ((q.withAbsorbed c d e ends u v []).mapItem v fun z =>
        { z.joinNames (w.names ++ y.names) with provenance := marker }) v
  /-- A marker is enforced. -/
  | applyUpperLimit {v : ItemId} {x : Item} {marker : Provenance} (live : q.item? v = some x)
    (kind : x.kind = .composite) (bounds : x.bounds = none) (marked : x.provenance = some marker) :
    Reduction q applyUpperLimit ⟨[v],[x.joinedName],none⟩
      (q.mapItem v fun z => { z with provenance := none }) v
  /-- A subquery with nothing but a composite vertex is merged into its parent. -/
  | eliminateSubquery {v : ItemId} {x : Item} {s p : ContainerId} {S : Container}
    (live : q.item? v = some x) (settled : Settled x) (owner : x.container = some s)
    (inner : q.container? s = some S) (parent : S.parent? = some p)
    (alone : S.vertices = [v] ∧ S.edges = [] ∧ S.subqueries = [] ∧ S.constraints = []) :
    Reduction q eliminateSubquery ⟨[v],[x.joinedName],none⟩
      (((q.withLifted p s S).withoutSubquery p s).mapItem v fun z => { z with bounds := S.bounds })
      v
  /-- A constraint is settled. -/
  | processConstraint {v : ItemId} {x : Item} {k found : Constraint} {c : ContainerId}
    {C : Container} {rest : List Constraint} (live : q.item? v = some x) (settled : Settled x)
    (declared : k ∈ q.constraints .whole) (bounds : k.bounds = none)
    (inside : ∀ name ∈ k.itemNames, name ∈ x.names) (owner : q.container? c = some C)
    (first : takeFirst k.sameRelation C.constraints = some (found,rest))
    (carried : removeConstraint k q =
      .ok found (q.mapContainer c fun _ => { C with constraints := rest })) :
    Reduction q processConstraint ⟨[v],[x.joinedName],some k⟩
      (q.mapContainer c fun _ => { C with constraints := rest }) v

/-! ## The weight -/

/-- Every reduction lowers the weight. -/
theorem Reduction.weight_lt {q q' : Query} {rule : Rule} {a : Application} {out : ItemId}
    (h : q.WellFormed) (hr : Reduction q rule a q' out) : q'.weight<q.weight := by
  change q'.gauged .weight<q.gauged .weight
  have hjoin : ∀ (names : List String) (x : Item),
      Gauge.weight.ofItem (x.joinNames names) = Gauge.weight.ofItem x := fun _ _ => rfl
  cases hr with
  | @getVertex v x edges c live kind bounds listed owner unmarked =>
    have hw := gauged_withReplaced .weight edges c
      (Item.bare (orderedSet x.names) (.vertex true [])) live
    have hx := Gauge.weight_vertex kind
    have hn : Gauge.weight.ofItem (Item.bare (orderedSet x.names) (.vertex true [])) = 0 := rfl
    omega
  | @absorbSelfLoop v e x y ends c live settled edge ended loop owner bounds unmarked =>
    have hw := gauged_withoutEdge .weight (c:=c) h edge ended
    have hy := Gauge.weight_edge (Item.kind_edge_iff.mpr ⟨ends,ended⟩)
    rw [gauged_mapItem_same .weight fun z _ => hjoin y.names z]
    omega
  | @collapseEdge v e u x y w ends edges c d able settled settled' unmarked together =>
    have hw := gauged_withAbsorbed .weight h able
    have hy := Gauge.weight_edge (Item.kind_edge_iff.mpr ⟨ends,able.ended⟩)
    rw [gauged_mapItem_same .weight fun z _ => hjoin _ z]
    omega
  | @absorbAnnotatedVertex v e u x y w ends c d a marker able settled =>
    have hy := Gauge.weight_edge (Item.kind_edge_iff.mpr ⟨ends,able.ended⟩)
    -- The marker of the kept vertex weighs less than the edge that is gone.
    obtain ⟨z,hsame,hm⟩ := gauged_merged .weight h able (filter_ne_alone e) fun z =>
      { z.joinNames (w.names ++ y.names) with provenance := marker }
    have hzk : ({ z.joinNames (w.names ++ y.names) with provenance := marker } : Item).kind =
        .composite := hsame.kind.trans settled.kind
    have hzw := Gauge.weight_composite hzk
    split at hzw <;> omega
  | @applyUpperLimit v x marker live kind bounds marked =>
    have hm := gauged_mapItem .weight (fun z => { z with provenance := none }) live
    have hx := Gauge.weight_composite kind
    have hn := Gauge.weight_composite (x:={ x with provenance := none }) kind
    rw [Item.isMarked,marked,Option.isSome_some,if_pos rfl] at hx
    rw [Item.isMarked,Option.isSome_none,if_neg Bool.false_ne_true] at hn
    omega
  | @eliminateSubquery v x s p S live settled owner inner parent alone =>
    have hw := gauged_flattened .weight h inner parent
    rw [gauged_mapItem_same .weight (f:=fun z => { z with bounds := S.bounds })
      fun _ _ => rfl]
    omega
  | @processConstraint v x k found c C rest live settled declared bounds inside owner first _ =>
    have hw := gauged_withoutFirst .weight owner first
    omega

end Rule

end GraphPattern
