import GraphPattern.Proofs.Rule.Declared
import GraphPattern.Proofs.Rule.Parts

/-!
# When rules apply

What a query has to look like for each rule to reduce it. A query is calm when nothing but
collapsing edges is left to do: its vertices without annotation are settled, and what a rule other
than that one could work on does not occur.
-/

namespace GraphPattern

namespace Rule

open Query

variable {q : Query} {v u e : ItemId} {s : Bool} {x : Item}

theorem exists_getVertex (h : q.WellFormed) (hx : q.item? v = some x) (hk : x.kind = .vertex)
    (hb : x.bounds = none) (hm : ∀ {e s}, q.Ends e s v → q.itemMarker e = none) :
    ∃ a q' out, Reduction q getVertex a q' out := by
  obtain ⟨edges,he⟩ := Item.isVertex_iff.mp (Item.isVertex_of_kind (.inl hk))
  obtain ⟨c,C,hc,-⟩ := h.owner hx
  refine ⟨_,_,_,.getVertex hx hk hb he hc fun e hme y hy => ?_⟩
  obtain ⟨s,hs⟩ := exists_ends_iff.mpr ((h.incident.joined hx he).mp hme)
  rw [← itemMarker_of_some hy]
  exact hm hs

theorem exists_applyUpperLimit (hx : q.item? v = some x) (hk : x.kind = .composite)
    (hb : x.bounds = none) (hm : x.provenance ≠ none) :
    ∃ a q' out, Reduction q applyUpperLimit a q' out := by
  obtain ⟨marker,hm⟩ := Option.ne_none_iff_exists'.mp hm
  exact ⟨_,_,_,.applyUpperLimit hx hk hb hm⟩

theorem exists_absorbSelfLoop (h : q.WellFormed) (he : ∀ s, q.Ends e s v) (hv : q.SettledAt v)
    (hb : q.itemBounds e = none) (hm : q.itemMarker e = none) :
    ∃ a q' out, Reduction q absorbSelfLoop a q' out := by
  obtain ⟨x,hx,hs⟩ := hv
  obtain ⟨y,ends,hy,hends,hsource⟩ := he true
  obtain ⟨y',ends',hy',hends',htarget⟩ := he false
  rw [hy] at hy'
  cases hy'
  rw [hends] at hends'
  cases hends'
  obtain ⟨c,C,hc,-⟩ := h.owner hy
  rw [itemBounds_of_some hy] at hb
  rw [itemMarker_of_some hy] at hm
  exact ⟨_,_,_,.absorbSelfLoop hx hs hy hends ⟨hsource,htarget⟩ hc hb hm⟩

/-- Two different vertices at the ends of an edge, of which one can be absorbed. -/
theorem exists_absorbable (h : q.WellFormed) (hv : q.Ends e s v) (hu : q.Ends e (!s) u)
    (hne : v ≠ u) : ∃ x y w ends edges c d, q.Absorbable e u v y w x ends edges c d := by
  obtain ⟨y,ends,hy,hends,hat⟩ := hv
  obtain ⟨y',ends',hy',hends',hat'⟩ := id hu
  rw [hy] at hy'
  cases hy'
  rw [hends] at hends'
  cases hends'
  obtain ⟨c,C,hc,-⟩ := h.owner hy
  obtain ⟨x,hx,hxv⟩ := Ends.isVertex ⟨y,ends,hy,hends,hat⟩ h
  obtain ⟨w,hw,hwv⟩ := hu.isVertex h
  obtain ⟨edges,he⟩ := Item.isVertex_iff.mp hwv
  obtain ⟨d,D,hd,-⟩ := h.owner hw
  exact ⟨x,y,w,ends,edges,c,d,hy,hends,hc,EdgeEnds.opposite?_iff.mpr
    ⟨!s,hat',by rw [Bool.not_not]; exact hat⟩,hne,hw,he,hd,hx,hxv⟩

theorem exists_collapseEdge (h : q.WellFormed) (hv : q.Ends e s v) (hu : q.Ends e (!s) u)
    (hne : v ≠ u) (hvs : q.SettledAt v) (hus : q.SettledAt u)
    (ho : q.itemOwner v = q.itemOwner u) (hm : q.itemMarker e = none) :
    ∃ a q', a.items = [v,e,u] ∧ Reduction q collapseEdge a q' v := by
  obtain ⟨x,y,w,ends,edges,c,d,able⟩ := exists_absorbable h hv hu hne
  obtain ⟨x',hx',hs⟩ := hvs
  obtain ⟨w',hw',hs'⟩ := hus
  rw [able.kept] at hx'
  cases hx'
  rw [able.absorbed] at hw'
  cases hw'
  rw [itemOwner_of_some able.kept,itemOwner_of_some able.absorbed] at ho
  rw [itemMarker_of_some able.edge] at hm
  exact ⟨_,_,rfl,.collapseEdge able hs hs' hm ho⟩

theorem exists_absorbAnnotatedVertex (h : q.WellFormed) (ha : q.Absorbs v e s u) :
    ∃ a q' out, Reduction q absorbAnnotatedVertex a q' out := by
  obtain ⟨x,y,w,ends,edges,c,d,able⟩ :=
    exists_absorbable h ha.near (by rw [Bool.not_not]; exact ha.far) ha.ne
  obtain ⟨x',hx',hs⟩ := ha.settled
  rw [able.kept] at hx'
  cases hx'
  -- The edge is the only one of the vertex.
  have hedges : edges = [e] := by
    have hmem : ∀ f, f ∈ edges ↔ f = e := by
      intro f
      rw [h.incident.joined able.absorbed able.listed,← exists_ends_iff]
      exact ⟨fun ⟨t,ht⟩ => ha.alone ht,fun hf => ⟨s,hf ▸ ha.far⟩⟩
    have hnodup := h.incident.nodup_edges able.absorbed able.listed
    exact List.perm_singleton.mp ((List.perm_ext_iff_of_nodup hnodup (List.nodup_singleton e)).mpr
      fun f => (hmem f).trans List.mem_singleton.symm)
  rw [hedges] at able
  have ho := ha.together
  rw [itemOwner_of_some able.kept,itemOwner_of_some able.absorbed] at ho
  have hm := ha.unmarked
  rw [itemMarker_of_some able.edge,itemMarker_of_some able.absorbed] at hm
  obtain ⟨b,hb⟩ := Option.ne_none_iff_exists'.mp ha.annotated
  have hb' := hb
  rw [itemBounds_of_some able.absorbed] at hb'
  have he := ha.edge
  rw [itemBounds_of_some able.edge] at he
  refine ⟨_,_,_,.absorbAnnotatedVertex able hs hb' he hm.1 hm.2 ho rfl ?_⟩
  cases hmax : b.max with
  | none => rfl
  | some max =>
    obtain ⟨y',ends',hy',hends',hname⟩ := ha.named hb (by rw [hmax]; rfl)
    rw [able.edge] at hy'
    cases hy'
    rw [able.ended] at hends'
    cases hends'
    rw [itemNames_of_some able.absorbed] at hname
    rw [Option.bind_some,Option.isSome_map,Option.isSome_some]
    exact EdgeEnds.nameAmong?_isSome.mpr hname

section Container

variable {c : ContainerId} {C : Container}

/-- The vertices of a container with one vertex. -/
theorem vertices_eq (h : q.WellFormed) (hC : q.container? c = some C) (hv : q.IsVertex v)
    (ho : q.itemOwner v = some c) (only : ∀ {u}, q.IsVertex u → q.itemOwner u = some c → u = v) :
    C.vertices = [v] := by
  have hmem : ∀ u, u ∈ C.vertices ↔ u = v := by
    intro u
    constructor
    · intro hu
      obtain ⟨x,hx,hxv,hxc⟩ := h.owned.member (b:=true) hC hu
      exact only ⟨x,hx,hxv⟩ ((itemOwner_of_some hx).trans hxc)
    · rintro rfl
      obtain ⟨x,hx,hxv⟩ := hv
      obtain ⟨d,D,hd,hD,hm⟩ := h.owned.owner hx
      rw [itemOwner_of_some hx,hd] at ho
      cases ho
      rw [hC] at hD
      cases hD
      rw [hxv] at hm
      exact hm
  exact List.perm_singleton.mp ((List.perm_ext_iff_of_nodup (h.owned.nodup true hC)
    (List.nodup_singleton v)).mpr fun u => (hmem u).trans List.mem_singleton.symm)

/-- The edges of a container without edges. -/
theorem edges_eq (h : q.WellFormed) (hC : q.container? c = some C)
    (none : ∀ {e}, q.IsEdge e → q.itemOwner e ≠ some c) : C.edges = [] := by
  refine List.eq_nil_iff_forall_not_mem.mpr fun e he => ?_
  obtain ⟨y,hy,hyv,hyc⟩ := h.owned.member (b:=false) hC he
  exact none ⟨y,hy,hyv⟩ ((itemOwner_of_some hy).trans hyc)

/-- The constraints of a container without constraints. -/
theorem constraints_eq (hC : q.container? c = some C) (none : ∀ k, k ∉ q.declared c) :
    C.constraints = [] :=
  List.eq_nil_iff_forall_not_mem.mpr fun k hk => none k (mem_declared.mpr ⟨C,hC,hk⟩)

theorem exists_eliminateSubquery (h : q.WellFormed) (hf : q.Flat) (hv : q.SettledAt v)
    (ho : q.itemOwner v = some c) (hC : q.container? c = some C) (hc : c ≠ .root)
    (only : ∀ {u}, q.IsVertex u → q.itemOwner u = some c → u = v)
    (edges : ∀ {e}, q.IsEdge e → q.itemOwner e ≠ some c) (constraints : ∀ k, k ∉ q.declared c) :
    ∃ a q' out, Reduction q eliminateSubquery a q' out := by
  obtain ⟨x,hx,hs⟩ := id hv
  obtain ⟨p,P,hp,-⟩ := h.nested.parent hC hc
  have hsub : C.subqueries = [] :=
    List.eq_nil_iff_forall_not_mem.mpr fun d hd => hc (hf ⟨C,hC,hd⟩)
  refine ⟨_,_,_,.eliminateSubquery hx hs ((itemOwner_of_some hx).symm.trans ho) hC hp
    ⟨vertices_eq h hC hv.isVertex ho only,edges_eq h hC edges,hsub,constraints_eq hC constraints⟩⟩

end Container

theorem exists_processConstraint {c : ContainerId} {k : Constraint} (h : q.WellFormed)
    (hv : q.SettledAt v) (hk : k ∈ q.declared c) (hself : k.sameRelation k = true)
    (hb : k.bounds = none) (hn : ∀ n ∈ k.itemNames, n ∈ q.itemNames v) :
    ∃ a q' out, Reduction q processConstraint a q' out := by
  obtain ⟨x,hx,hs⟩ := hv
  obtain ⟨C,hC,hk⟩ := mem_declared.mp hk
  rw [itemNames_of_some hx] at hn
  rcases removeConstraint_cases q k with ⟨-,hnone⟩|⟨d,D,found,rest,hD,hfirst,hcarried⟩
  · rw [hnone c C hC k hk] at hself
    cases hself
  · exact ⟨_,_,_,.processConstraint hx hs (h.nested.mem_flatMap_containersIn hC hk) hb hn hD hfirst
      hcarried⟩

end Rule

namespace Query

open Rule

variable {q : Query} {v u e : ItemId} {s : Bool}

/-- Nothing but collapsing edges is left to do. -/
def Calm (q : Query) : Prop :=
  ∀ rule a q' out, Reduction q rule a q' out → rule = collapseEdge

namespace Calm

/-- A rule of another name does not apply. -/
theorem not_applies (h : q.Calm) {rule : Rule} (hn : rule.name ≠ collapseEdge.name) :
    ¬∃ a q' out, Reduction q rule a q' out := by
  rintro ⟨a,q',out,hr⟩
  exact hn (congrArg Rule.name (h rule a q' out hr))

/-- A vertex without annotation is settled if no edge is marked. -/
theorem settledAt (h : q.Calm) (hq : q.WellFormed) (hm : ∀ {e}, q.IsEdge e → q.itemMarker e = none)
    (hv : q.IsVertex v) (hb : q.itemBounds v = none) : q.SettledAt v := by
  obtain ⟨x,hx,hxv⟩ := hv
  rw [itemBounds_of_some hx] at hb
  by_cases hk : x.kind = .composite
  · refine ⟨x,hx,hk,hb,?_⟩
    by_contra hp
    exact h.not_applies (by decide) (exists_applyUpperLimit hx hk hb hp)
  · exact absurd (exists_getVertex hq hx (Item.kind_of_isVertex hxv hk) hb fun he => hm he.isEdge)
      (h.not_applies (by decide))

end Calm

end Query

end GraphPattern
