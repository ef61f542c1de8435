import GraphPattern.Proofs.Rule.Effort
import GraphPattern.Proofs.Rule.Origin

/-!
# The effort as contents show it

A content does not show annotations, so it does not show either how many upper bounds are left. But
an upper bound is brought to a vertex that is absorbed along one edge, which is known from the
start. If that edge counts for the bound, what is left to be done can be read off the content of
every query that reductions lead to, and every reduction still takes one off it.
-/

namespace GraphPattern

namespace Query

/-- An upper bound is brought along the edge with the name, which one of its ends brings to the
other one. -/
def Charged (q : Query) (name : String) : Prop :=
  ∃ i y ends b, q.item? i = some y ∧ name ∈ y.names ∧ y.ends? = some ends ∧
    b.max.isSome = true ∧ (q.Brings (fun _ => True) ends.sourceName ends.targetName b ∨
      q.Brings (fun _ => True) ends.targetName ends.sourceName b)

/-- The names are those of an item without annotation. -/
def Unannotated (q : Query) (names : List String) : Prop :=
  ∃ i x, q.item? i = some x ∧ x.names = names ∧ x.bounds = none

end Query

namespace Gauge

open Classical in
/-- What is left to be done about an item, as the query that reductions set out from tells. -/
noncomputable def duesOf (q₀ : Query) (i : ItemIdentity) : Nat :=
  match i.kind with
  | .vertex => if q₀.Unannotated i.names then 1 else 0
  | .composite => if i.origin.isSome then 1 else 0
  | .edge => 1 + if ∃ name ∈ i.names, q₀.Charged name then 1 else 0

/-- The gauge that shows the effort that a query takes, without a look at annotations. -/
noncomputable def dues (q₀ : Query) : Gauge := ⟨fun i _ => duesOf q₀ i,fun _ => 0⟩

theorem visible_dues (q₀ : Query) : (dues q₀).Visible := ⟨fun _ _ => rfl,fun _ => rfl⟩

variable {q₀ : Query} {x : Item}

theorem dues_vertex (h : x.kind = .vertex) (hb : q₀.Unannotated x.names) :
    (dues q₀).ofItem x = 1 := by
  simp only [ofItem,dues,duesOf,Item.identity,h,if_pos hb]

theorem dues_annotated (h : x.kind = .vertex) (hb : ¬q₀.Unannotated x.names) :
    (dues q₀).ofItem x = 0 := by
  simp only [ofItem,dues,duesOf,Item.identity,h,if_neg hb]

theorem dues_composite (h : x.kind = .composite) :
    (dues q₀).ofItem x = if x.isMarked then 1 else 0 := by
  cases hp : x.provenance <;> simp [ofItem,dues,duesOf,Item.identity,h,
    ItemClass.bearsProvenance,Item.isMarked,hp]

/-- The names of a composite vertex do not count. -/
theorem dues_joinNames (h : x.kind = .composite) (names : List String) :
    (dues q₀).ofItem (x.joinNames names) = (dues q₀).ofItem x := by
  rw [dues_composite h,dues_composite (x:=x.joinNames names) h]
  rfl

theorem dues_settled (h : Rule.Settled x) : (dues q₀).ofItem x = 0 := by
  rw [dues_composite h.kind,Item.isMarked,h.provenance]
  rfl

theorem dues_charged (h : x.kind = .edge) (hc : ∃ name ∈ x.names, q₀.Charged name) :
    (dues q₀).ofItem x = 2 := by
  simp only [ofItem,dues,duesOf,Item.identity,h,if_pos hc]

theorem dues_edge (h : x.kind = .edge) (hc : ¬∃ name ∈ x.names, q₀.Charged name) :
    (dues q₀).ofItem x = 1 := by
  simp only [ofItem,dues,duesOf,Item.identity,h,if_neg hc]

end Gauge

namespace Rule

open Query

variable {q₀ q q' : Query} {rule : Rule} {a : Application} {out : ItemId}

/-- Whether a bound is brought along an edge between vertices of one container shows at its ends. -/
theorem charged_iff (h : q₀.Traced q) (hq : q.Reducible) {e u v : ItemId} {y x w : Item}
    {ends : EdgeEnds} {n m : String} (hy : q.item? e = some y) (he : y.ends? = some ends)
    (hs : ends.Side u n m (some v)) (hs' : ends.Side v m n (some u))
    (hnm : (n = ends.sourceName ∧ m = ends.targetName) ∨
      (n = ends.targetName ∧ m = ends.sourceName))
    (hw : q.item? u = some w) (hx : q.item? v = some x) (ht : x.container = w.container)
    (hb : x.bounds = none) : (∃ name ∈ y.names, q₀.Charged name) ↔
      ∃ b, b.max.isSome = true ∧ q₀.Brings (fun _ => True) n m b := by
  obtain ⟨j,y₀,ends₀,hy₀,he₀,hnames,hsn,htn⟩ := h.edge hy he
  -- Nothing is brought to the end without annotation.
  have hnone : ∀ b, ¬q₀.Brings (fun _ => True) m n b := fun b hbr => by
    have hxb := h.brought_together hq hy he hs' hs hx hw ht hbr
    rw [hb] at hxb
    cases hxb
  constructor
  · rintro ⟨name,hname,i,z,ends₁,b,hz,hnz,hze,hmax,hbr⟩
    cases h.named.disjoint hz hy₀ hnz (hnames ▸ hname)
    rw [hz] at hy₀
    cases hy₀
    rw [he₀] at hze
    cases hze
    refine ⟨b,hmax,?_⟩
    rw [hsn,htn] at hbr
    rcases hnm with ⟨rfl,rfl⟩|⟨rfl,rfl⟩
    · exact hbr.resolve_right (hnone b)
    · exact hbr.resolve_left (hnone b)
  · rintro ⟨b,hmax,hbr⟩
    obtain ⟨name,hname⟩ := List.exists_mem_of_ne_nil _ (hq.wellFormed.named.named hy).nonempty
    refine ⟨name,hname,j,y₀,ends₀,b,hy₀,hnames ▸ hname,he₀,hmax,?_⟩
    rw [hsn,htn]
    rcases hnm with ⟨rfl,rfl⟩|⟨rfl,rfl⟩
    · exact .inl hbr
    · exact .inr hbr

/-- Along an edge between vertices without annotations no bound is brought. -/
theorem not_charged (h : q₀.Traced q) (hq : q.Reducible) {e u v : ItemId} {y x w : Item}
    {ends : EdgeEnds} {n m : String} (hy : q.item? e = some y) (he : y.ends? = some ends)
    (hs : ends.Side u n m (some v)) (hs' : ends.Side v m n (some u))
    (hnm : (n = ends.sourceName ∧ m = ends.targetName) ∨
      (n = ends.targetName ∧ m = ends.sourceName))
    (hw : q.item? u = some w) (hx : q.item? v = some x) (ht : x.container = w.container)
    (hb : w.bounds = none) (hb' : x.bounds = none) : ¬∃ name ∈ y.names, q₀.Charged name := by
  intro hc
  obtain ⟨b,-,hbr⟩ := (charged_iff h hq hy he hs hs' hnm hw hx ht hb').mp hc
  have hwb := h.brought_together hq hy he hs hs' hw hx ht.symm hbr
  rw [hb] at hwb
  cases hwb

/-- Along an edge to an annotated vertex a bound is brought exactly if the annotation has one. -/
theorem charged_annotated (h : q₀.Traced q) (hq : q.Reducible) {e u v : ItemId} {y x w : Item}
    {ends : EdgeEnds} {n m : String} {b : Annotation} (hy : q.item? e = some y)
    (he : y.ends? = some ends) (hs : ends.Side u n m (some v)) (hs' : ends.Side v m n (some u))
    (hnm : (n = ends.sourceName ∧ m = ends.targetName) ∨
      (n = ends.targetName ∧ m = ends.sourceName)) (hne : v ≠ u)
    (hw : q.item? u = some w) (hx : q.item? v = some x) (ht : x.container = w.container)
    (hb : w.bounds = some b) (hb' : x.bounds = none) :
    (∃ name ∈ y.names, q₀.Charged name) ↔ b.max.isSome = true := by
  rw [charged_iff h hq hy he hs hs' hnm hw hx ht hb']
  constructor
  · rintro ⟨b',hmax,hbr⟩
    have hwb := h.brought_together hq hy he hs hs' hw hx ht.symm hbr
    rw [hb] at hwb
    cases hwb
    exact hmax
  · intro hmax
    exact ⟨b,hmax,(h.brings hy he hs hne hw hb).imp fun _ _ => trivial⟩

/-- Nothing is left to be done about an annotated vertex. -/
theorem dues_absorbed (h : q₀.Traced q) (hq : q.Reducible) {u : ItemId} {w : Item}
    {b : Annotation} (hw : q.item? u = some w) (hk : w.kind ≠ .edge) (hb : w.bounds = some b)
    (hm : w.provenance = none) : (Gauge.dues q₀).ofItem w = 0 := by
  cases hwk : w.kind with
  | vertex =>
    refine Gauge.dues_annotated hwk ?_
    rintro ⟨i,x,hx,hn,hnone⟩
    obtain ⟨j,x₀,hx₀,hn₀,hb₀⟩ := h.plain hw hwk
    obtain ⟨name,hname⟩ := List.exists_mem_of_ne_nil _ (hq.wellFormed.named.named hw).nonempty
    cases h.named.disjoint hx hx₀ (hn ▸ hname) (hn₀ ▸ hname)
    rw [hx] at hx₀
    cases hx₀
    rw [hnone,hb] at hb₀
    cases hb₀
  | composite =>
    rw [Gauge.dues_composite hwk,Item.isMarked,hm]
    rfl
  | edge => exact absurd hwk hk

/-- Every reduction takes one off the effort that contents show. -/
theorem Reduction.dues_eq (hr : Reduction q rule a q' out) (h : q₀.Traced q) (hq : q.Reducible) :
    q'.gauged (.dues q₀) + 1 = q.gauged (.dues q₀) := by
  have hwf := hq.wellFormed
  cases hr with
  | @getVertex v x edges c live kind bounds listed owner unmarked =>
    have hw := gauged_withReplaced (.dues q₀) edges c
      (Item.bare (orderedSet x.names) (.vertex true [])) live
    obtain ⟨j,x₀,hx₀,hn,hb⟩ := h.plain live kind
    have hx := Gauge.dues_vertex kind ⟨j,x₀,hx₀,hn,hb.trans bounds⟩
    have hn : (Gauge.dues q₀).ofItem (Item.bare (orderedSet x.names) (.vertex true [])) = 0 :=
      Gauge.dues_composite rfl
    omega
  | @absorbSelfLoop v e x y ends c live settled edge ended loop owner bounds unmarked =>
    have hw := gauged_withoutEdge (.dues q₀) (c:=c) hwf edge ended
    have hside : ends.Side out ends.sourceName ends.targetName (some out) :=
      loop.2 ▸ .source loop.1
    have hy : (Gauge.dues q₀).ofItem y = 1 :=
      Gauge.dues_edge (Item.kind_edge_iff.mpr ⟨ends,ended⟩) (not_charged h hq edge ended hside
        hside.flip (.inl ⟨rfl,rfl⟩) live live rfl settled.bounds settled.bounds)
    have hsame : ((q.withoutEdge c e ends).mapItem out (Item.joinNames y.names)).gauged (.dues q₀) =
        (q.withoutEdge c e ends).gauged (.dues q₀) := by
      refine gauged_mapItem_same (.dues q₀) fun z hz => Gauge.dues_joinNames ?_ y.names
      have hve := ne_of_ends edge ended live (Item.isVertex_of_kind (.inr settled.kind))
      rw [item?_withoutEdge,if_neg hve,live,Option.map_some,if_pos (.inl loop.1)] at hz
      cases hz
      exact (Item.sameButIncidence_detach e x).kind.trans settled.kind
    omega
  | @collapseEdge v e u x y w ends edges c d able settled settled' unmarked together =>
    obtain ⟨n,m,hside,hside',hnm⟩ := EdgeEnds.side_of_opposite able.opposite
    have hy : (Gauge.dues q₀).ofItem y = 1 :=
      Gauge.dues_edge (Item.kind_edge_iff.mpr ⟨ends,able.ended⟩) (not_charged h hq able.edge
        able.ended hside hside' hnm able.absorbed able.kept together settled'.bounds settled.bounds)
    have hu : (Gauge.dues q₀).ofItem w = 0 := Gauge.dues_settled settled'
    obtain ⟨z,hsame,hm⟩ := gauged_merged (.dues q₀) hwf able rfl
      (Item.joinNames (w.names ++ y.names))
    rw [Gauge.dues_joinNames (hsame.kind.trans settled.kind),
      Gauge.sameButIncidence (.dues q₀) hsame] at hm
    omega
  | @absorbAnnotatedVertex v e u x y w ends c d a marker able settled bounds _ _ unmarked'
      together _ marked =>
    obtain ⟨n,m,hside,hside',hnm⟩ := EdgeEnds.side_of_opposite able.opposite
    have hmax := charged_annotated h hq able.edge able.ended hside hside' hnm able.ne able.absorbed
      able.kept together bounds settled.bounds
    have hyk := Item.kind_edge_iff.mpr ⟨ends,able.ended⟩
    have hy : (Gauge.dues q₀).ofItem y = 1 + if marker.isSome = true then 1 else 0 := by
      rw [marked]
      by_cases hm : a.max.isSome = true
      · rw [if_pos hm,Gauge.dues_charged hyk (hmax.mpr hm)]
      · rw [if_neg hm,Gauge.dues_edge hyk fun hc => hm (hmax.mp hc)]
    have hu := dues_absorbed h hq able.absorbed (kind_ne_edge able.listed) bounds unmarked'
    obtain ⟨z,hsame,hm⟩ := gauged_merged (.dues q₀) hwf able (filter_ne_alone e) fun z =>
      { z.joinNames (w.names ++ y.names) with provenance := marker }
    have hx₀ : (Gauge.dues q₀).ofItem x = 0 := Gauge.dues_settled settled
    have hzw : (Gauge.dues q₀).ofItem { z.joinNames (w.names ++ y.names) with
        provenance := marker } = if marker.isSome = true then 1 else 0 :=
      Gauge.dues_composite (x:={ z.joinNames (w.names ++ y.names) with provenance := marker })
        (hsame.kind.trans settled.kind)
    omega
  | @applyUpperLimit v x marker live kind bounds marked =>
    have hm := gauged_mapItem (.dues q₀) (fun z => { z with provenance := none }) live
    have hx : (Gauge.dues q₀).ofItem x = 1 := by
      rw [Gauge.dues_composite kind,Item.isMarked,marked]
      rfl
    have hn : (Gauge.dues q₀).ofItem { x with provenance := none } = 0 :=
      Gauge.dues_composite (x:={ x with provenance := none }) kind
    omega
  | @eliminateSubquery v x s p S live settled owner inner parent alone =>
    have hw := gauged_flattened (.dues q₀) hwf inner parent
    have hb : (Gauge.dues q₀).bounds S.bounds = 0 := rfl
    rw [gauged_mapItem_same (.dues q₀) (f:=fun z => { z with bounds := S.bounds }) fun _ _ => rfl]
    omega
  | @processConstraint v x k found c C rest live settled declared bounds inside owner first _ =>
    exact gauged_withoutFirst (.dues q₀) owner first

/-- Of a consolidated query contents show no effort. -/
theorem dues_consolidated (h : q.WellFormed) (hc : q.isConsolidated = true) :
    q.gauged (.dues q₀) = 1 := by
  obtain ⟨x,hx,hq⟩ := gauged_consolidated (.dues q₀) h hc
  rw [hq,Gauge.dues_settled hx]
  rfl

end Rule

end GraphPattern
