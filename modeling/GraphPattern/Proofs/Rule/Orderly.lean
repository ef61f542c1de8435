import GraphPattern.Proofs.Rule.Parts
import GraphPattern.Proofs.Rule.Solvable

/-!
# What a query keeps that can be solved

No reduction gets rid of a self-loop at an annotated vertex, of a marked edge, or of two edges at
which an annotated vertex hangs. A query in which such a thing stands cannot be solved, and each of
the rules that follow from this goes back over every reduction.
-/

namespace GraphPattern

namespace Query

open Rule

variable {q q' : Query} {e f v u out : ItemId} {s t : Bool} {c : ContainerId} {rule : Rule}
  {a : Application}

/-- A name within a subquery: of a vertex there, or of an edge that ends nowhere else. -/
def NameWithin (q : Query) (c : ContainerId) (n : String) : Prop :=
  (∃ v, q.IsVertex v ∧ q.itemOwner v = some c ∧ n ∈ q.itemNames v) ∨
    ∃ e, q.IsEdge e ∧ (∀ {s v}, q.Ends e s v → q.itemOwner v = some c) ∧ n ∈ q.itemNames e

/-- What a query keeps that can be solved. -/
structure Orderly (q : Query) : Prop where
  /-- At an annotated vertex there is no self-loop. -/
  loopless : ∀ {e v}, q.Ends e true v → q.Ends e false v → q.itemBounds v = none
  /-- An annotated vertex is not marked. -/
  unmarked : ∀ {v}, q.IsVertex v → q.itemBounds v ≠ none → q.itemMarker v = none
  /-- An edge is not marked. -/
  plain : ∀ {e}, q.IsEdge e → q.itemMarker e = none
  /-- Something is annotated at one end of an edge at most. -/
  oneSided : ∀ {e s}, q.AnnotatedAt e s → ¬q.AnnotatedAt e (!s)
  /-- Then the edge is annotated too. -/
  annotated : ∀ {e s}, q.AnnotatedAt e s → q.itemBounds e ≠ none
  /-- And at the vertex there it is the only such edge. -/
  single : ∀ {e f s t v}, q.AnnotatedAt e s → q.AnnotatedAt f t → q.Ends e s v → q.Ends f t v →
    e = f
  /-- An edge of a subquery leads nowhere else from there. -/
  inner : ∀ {e s c v u}, c ≠ .root → q.itemOwner e = some c → q.Ends e s v → q.Ends e (!s) u →
    q.itemOwner v = some c → q.itemOwner u = some c
  /-- An edge joins an annotated vertex to another one. -/
  hung : ∀ {v}, q.IsVertex v → q.itemBounds v ≠ none →
    ∃ e s u, q.Ends e s v ∧ q.Ends e (!s) u ∧ u ≠ v
  /-- An edge leads out of an annotated subquery. -/
  crossed : ∀ {c}, q.subqueryBounds c ≠ none → ∃ e s v u, q.Ends e s v ∧ q.Ends e (!s) u ∧
    q.itemOwner v = some c ∧ q.itemOwner u ≠ some c
  /-- An edge at a vertex with an upper bound names it. -/
  named : ∀ {e s v u b}, q.Ends e s v → q.Ends e (!s) u → u ≠ v → q.itemBounds v = some b →
    b.max.isSome = true → q.NamedAt e (· ∈ q.itemNames v)
  /-- An edge out of a subquery with an upper bound names something within. -/
  namedWithin : ∀ {e s v u c b}, q.Ends e s v → q.Ends e (!s) u → q.itemOwner v = some c →
    q.itemOwner u ≠ some c → q.subqueryBounds c = some b → b.max.isSome = true →
      q.NamedAt e (q.NameWithin c)

theorem not_isEdge_of_consolidated (h : q.WellFormed) (hc : q.isConsolidated = true) {e : ItemId} :
    ¬q.IsEdge e := by
  obtain ⟨v,x,hx,hs,honly,-,-⟩ := eq_of_consolidated h hc
  rintro ⟨y,hy,hv⟩
  cases honly e y hy
  rw [hx] at hy
  cases hy
  rw [Item.isVertex_of_kind (.inr hs.kind)] at hv
  cases hv

/-- Nothing stands in a consolidated query that could break a rule. -/
theorem orderly_of_consolidated (h : q.WellFormed) (hc : q.isConsolidated = true) : q.Orderly := by
  obtain ⟨v₀,x,hx,hs,honly,hroot,-⟩ := eq_of_consolidated h hc
  have hedge : ∀ {e}, ¬q.IsEdge e := not_isEdge_of_consolidated h hc
  have hbare : ∀ {v}, q.IsVertex v → q.itemBounds v = none := by
    rintro v ⟨y,hy,-⟩
    cases honly v y hy
    rw [itemBounds_of_some hx,hs.bounds]
  have hat : ∀ {e s}, ¬q.AnnotatedAt e s := by
    rintro e s ⟨v,u,hv,-⟩
    exact hedge hv.isEdge
  constructor
  · exact fun he => absurd he.isEdge hedge
  · exact fun hv hb => absurd (hbare hv) hb
  · exact fun he => absurd he hedge
  · exact fun ha => absurd ha hat
  · exact fun ha => absurd ha hat
  · exact fun ha => absurd ha hat
  · exact fun _ _ he => absurd he.isEdge hedge
  · exact fun hv hb => absurd (hbare hv) hb
  · intro c hb
    rw [subqueryBounds] at hb
    obtain ⟨b,hb⟩ := Option.ne_none_iff_exists'.mp hb
    obtain ⟨C,hC,hCb⟩ := Option.bind_eq_some_iff.mp hb
    cases hroot c C hC
    rw [← subqueryBounds_of_some hC,h.subqueryBounds_root] at hCb
    cases hCb
  · exact fun he => absurd he.isEdge hedge
  · exact fun he => absurd he.isEdge hedge

section Back

variable (hr : Reduction q rule a q' out) (hq : q.WellFormed) (hf : q.Flat) (h : q'.Orderly)

include hr hq

/-- A vertex stays that the reduction is not about. -/
theorem vertex_stays (hv : q.IsVertex v) (hm : v ∉ a.items) :
    q'.IsVertex v ∧ q'.itemBounds v = q.itemBounds v ∧ q'.itemMarker v = q.itemMarker v ∧
      q'.itemNames v = q.itemNames v := by
  have hc := hr.changes hq
  obtain ⟨x,hx,-⟩ := id hv
  obtain ⟨hn,hb,hm'⟩ := hc.same hx hm
  exact ⟨(hc.isVertex_iff (hc.forth hx hm).1).mpr ⟨hv,hm⟩,hb,hm',hn⟩

/-- An edge at such a vertex stays. -/
theorem edge_stays (he : q.Ends e s v) (hm : v ∉ a.items) : e ∉ a.items ∧ q'.Ends e s v := by
  have he' : e ∉ a.items := fun h => hm ((hr.merges hq).ends_mem hq he h)
  have := (hr.changes hq).ends he he'
  rw [ItemId.merged_of_not_mem hm] at this
  exact ⟨he',this⟩

include h

theorem Orderly.loopless_back (he : q.Ends e true v) (he' : q.Ends e false v) :
    q.itemBounds v = none := by
  by_contra hb
  have hv := he.isVertex hq
  by_cases hm : v ∈ a.items
  · obtain ⟨f,s,-,ha⟩ := (hr.merges hq).absorbs hv hb hm
    -- The self-loop would be the edge at which the vertex hangs.
    cases ha.alone he
    cases s
    · exact ha.ne (ha.near.unique he)
    · exact ha.ne (ha.near.unique he')
  · obtain ⟨-,hb',-⟩ := vertex_stays hr hq hv hm
    rw [← hb'] at hb
    exact hb (h.loopless (edge_stays hr hq he hm).2 (edge_stays hr hq he' hm).2)

theorem Orderly.unmarked_back (hv : q.IsVertex v) (hb : q.itemBounds v ≠ none) :
    q.itemMarker v = none := by
  by_cases hm : v ∈ a.items
  · obtain ⟨f,s,-,ha⟩ := (hr.merges hq).absorbs hv hb hm
    exact ha.unmarked.2
  · obtain ⟨hv',hb',hm',-⟩ := vertex_stays hr hq hv hm
    rw [← hm']
    exact h.unmarked hv' (hb' ▸ hb)

theorem Orderly.plain_back (he : q.IsEdge e) : q.itemMarker e = none := by
  by_cases hm : e ∈ a.items
  · exact ((hr.merges hq).goes hq he hm).itemMarker
  · obtain ⟨y,hy,-⟩ := id he
    rw [← ((hr.changes hq).same hy hm).2.2]
    exact h.plain ((hr.changes hq).isEdge_iff.mpr ⟨he,hm⟩)

include hf in
theorem Orderly.oneSided_back (ha : q.AnnotatedAt e s) : ¬q.AnnotatedAt e (!s) := by
  obtain ⟨v,u,hv,-⟩ := id ha
  by_cases hm : e ∈ a.items
  · obtain ⟨v,u,hab⟩ := ((hr.merges hq).goes hq hv.isEdge hm).absorbs ha
    exact hab.not_annotatedAt
  · rw [← hr.annotatedAt_iff hq hf hm] at ha ⊢
    exact h.oneSided ha

include hf in
theorem Orderly.annotated_back (ha : q.AnnotatedAt e s) : q.itemBounds e ≠ none := by
  obtain ⟨v,u,hv,-⟩ := id ha
  by_cases hm : e ∈ a.items
  · obtain ⟨v,u,hab⟩ := ((hr.merges hq).goes hq hv.isEdge hm).absorbs ha
    exact hab.edge
  · obtain ⟨y,hy,-⟩ := hv.isEdge
    rw [← ((hr.changes hq).same hy hm).2.1]
    exact h.annotated ((hr.annotatedAt_iff hq hf hm).mpr ha)

include hf in
theorem Orderly.single_back (ha : q.AnnotatedAt e s) (hb : q.AnnotatedAt f t) (hv : q.Ends e s v)
    (hv' : q.Ends f t v) : e = f := by
  have hgone : ∀ {e f s t}, q.AnnotatedAt e s → q.Ends e s v → q.Ends f t v → e ∈ a.items →
      f = e := by
    intro e f s t ha he hf hm
    obtain ⟨w,u,hab⟩ := ((hr.merges hq).goes hq he.isEdge hm).absorbs ha
    exact hab.alone (hab.far.unique he ▸ hf)
  by_cases hm : e ∈ a.items
  · exact (hgone ha hv hv' hm).symm
  · by_cases hm' : f ∈ a.items
    · exact hgone hb hv' hv hm'
    · exact h.single ((hr.annotatedAt_iff hq hf hm).mpr ha) ((hr.annotatedAt_iff hq hf hm').mpr hb)
        ((hr.changes hq).ends hv hm) ((hr.changes hq).ends hv' hm')

include hf in
theorem Orderly.inner_back (hc : c ≠ .root) (ho : q.itemOwner e = some c) (hv : q.Ends e s v)
    (hu : q.Ends e (!s) u) (hvc : q.itemOwner v = some c) : q.itemOwner u = some c := by
  by_cases hm : e ∈ a.items
  · rw [← ((hr.merges hq).goes hq hv.isEdge hm).itemOwner_eq hv hu,hvc]
  · have hch := hr.changes hq
    have he' := hr.itemOwner_edge hq hv.isEdge hm
    obtain ⟨y,hy,-⟩ := (hch.ends hv hm).isEdge
    -- The edge has an owner after the reduction, so the subquery is still there.
    obtain ⟨d,D,hd,hD⟩ := (hr.applied hq).2.itemOwner hy
    rw [he',ho] at hd
    cases hd
    rw [← hr.itemOwner_iff hq hf hD hc (hu.isVertex hq)]
    refine h.inner hc (he'.trans ho) (hch.ends hv hm) (hch.ends hu hm) ?_
    rw [hr.itemOwner_iff hq hf hD hc (hv.isVertex hq)]
    exact hvc

theorem Orderly.hung_back (hv : q.IsVertex v) (hb : q.itemBounds v ≠ none) :
    ∃ e s u, q.Ends e s v ∧ q.Ends e (!s) u ∧ u ≠ v := by
  by_cases hm : v ∈ a.items
  · obtain ⟨e,s,-,ha⟩ := (hr.merges hq).absorbs hv hb hm
    exact ⟨e,s,out,ha.far,ha.near,ha.ne⟩
  · have hc := hr.changes hq
    obtain ⟨hv',hb',-⟩ := vertex_stays hr hq hv hm
    obtain ⟨e,s,u',hev,heu,hne⟩ := h.hung hv' (hb' ▸ hb)
    obtain ⟨-,v₀,hv₀,hv₀'⟩ := hc.ends_iff.mp hev
    obtain ⟨-,u,hu,rfl⟩ := hc.ends_iff.mp heu
    obtain ⟨x,hx,-⟩ := hv
    have hvv : v₀ = v := by
      by_cases hm₀ : v₀ ∈ a.items
      · rw [ItemId.merged_of_mem hm₀] at hv₀'
        exact absurd hv₀' (hc.forth hx hm).1
      · rw [ItemId.merged_of_not_mem hm₀] at hv₀'
        exact hv₀'.symm
    cases hvv
    exact ⟨e,s,u,hv₀,hu,fun h => hne (by rw [h]; exact hv₀'.symm)⟩

omit h in
/-- An annotated subquery stays, or it is lifted. -/
theorem subquery_cases (hc : q.subqueryBounds c ≠ none) :
    (c ≠ .root ∧ ∃ C, q'.container? c = some C ∧ q'.subqueryBounds c = q.subqueryBounds c) ∨
      ∃ x p S, a.items = [out] ∧ Unwrapped q q' out x c p S ∧ q.subqueryBounds c = S.bounds := by
  obtain ⟨b,hb⟩ := Option.ne_none_iff_exists'.mp hc
  obtain ⟨C,hC,-⟩ := Option.bind_eq_some_iff.mp hb
  rcases hr.container_cases hq hC with ⟨C',hC',hCb⟩|⟨x,p,hi,hu⟩
  · refine .inl ⟨fun h => hc (h ▸ hq.subqueryBounds_root),C',hC',?_⟩
    rw [subqueryBounds_of_some hC,subqueryBounds_of_some hC',hCb]
  · exact .inr ⟨x,p,C,hi,hu,subqueryBounds_of_some hC⟩

omit h in
/-- The ends of edges stay when a subquery is lifted. -/
theorem ends_of_lifted (hi : a.items = [out]) (hv : q'.Ends e s v) : q.Ends e s v := by
  obtain ⟨-,u,hu,rfl⟩ := (hr.changes hq).ends_iff.mp hv
  rw [hi,ItemId.merged_self]
  exact hu

include hf in
theorem Orderly.crossed_back (hb : q.subqueryBounds c ≠ none) : ∃ e s v u, q.Ends e s v ∧
    q.Ends e (!s) u ∧ q.itemOwner v = some c ∧ q.itemOwner u ≠ some c := by
  have hc := hr.changes hq
  rcases subquery_cases hr hq hb with ⟨hroot,C,hC,hb'⟩|⟨x,p,S,hi,hu,hS⟩
  · obtain ⟨e,s,v',u',hv',hu',hvc,huc⟩ := h.crossed (hb' ▸ hb)
    obtain ⟨-,v,hv,rfl⟩ := hc.ends_iff.mp hv'
    obtain ⟨-,u,hu,rfl⟩ := hc.ends_iff.mp hu'
    rw [hr.itemOwner_iff hq hf hC hroot (hv.isVertex hq)] at hvc
    rw [Ne,hr.itemOwner_iff hq hf hC hroot (hu.isVertex hq)] at huc
    exact ⟨e,s,v,u,hv,hu,hvc,huc⟩
  · -- An edge joins the vertex that is left of the subquery to another one.
    have hout : q'.itemBounds out ≠ none := by
      rw [hu.itemBounds,if_pos rfl,← hS]
      exact hb
    obtain ⟨e,s,u,hv,hu',hne⟩ := h.hung hc.isVertex_out hout
    exact ⟨e,s,out,u,ends_of_lifted hr hq hi hv,ends_of_lifted hr hq hi hu',
      (hu.itemOwner_iff hq).mpr rfl,fun h => hne ((hu.itemOwner_iff hq).mp h)⟩

theorem Orderly.named_back {b : Annotation} (hv : q.Ends e s v) (hu : q.Ends e (!s) u) (hne : u ≠ v)
    (hb : q.itemBounds v = some b) (hmax : b.max.isSome = true) :
    q.NamedAt e (· ∈ q.itemNames v) := by
  have hc := hr.changes hq
  by_cases hm : v ∈ a.items
  · obtain ⟨f,t,-,ha⟩ := (hr.merges hq).absorbs (hv.isVertex hq)
      (by rw [hb]; exact Option.some_ne_none b) hm
    cases ha.alone hv
    exact ha.named hb hmax
  · obtain ⟨-,hb',-,hn⟩ := vertex_stays hr hq (hv.isVertex hq) hm
    obtain ⟨he,hv'⟩ := edge_stays hr hq hv hm
    have hne' : u.merged a.items out ≠ v := by
      obtain ⟨x,hx,-⟩ := hv.isVertex hq
      by_cases hu : u ∈ a.items
      · rw [ItemId.merged_of_mem hu]
        exact (hc.forth hx hm).1.symm
      · rw [ItemId.merged_of_not_mem hu]
        exact hne
    have := h.named hv' (hc.ends hu he) hne' (hb'.trans hb) hmax
    rw [hn] at this
    exact (hc.namedAt.mp this).1

include hf in
omit h in
/-- A name that is within a subquery after a reduction was within it before. -/
theorem nameWithin_back {C : Container} (hC : q'.container? c = some C) (hroot : c ≠ .root)
    {n : String} (hn : q'.NameWithin c n) : q.NameWithin c n := by
  have hc := hr.changes hq
  have hm := hr.merges hq
  rcases hn with ⟨v,hv,hvc,hn⟩|⟨e,he,hec,hn⟩
  · by_cases hvo : v = out
    · rw [hvo] at hvc hn
      obtain ⟨i,hi,hin⟩ := hc.itemNames_out.mp hn
      -- Every vertex that went into what came out was in the subquery.
      have hin' : ∀ {w}, w ∈ a.items → q.IsVertex w → q.itemOwner w = some c := fun hw hwv => by
        rw [← hr.itemOwner_iff hq hf hC hroot hwv,ItemId.merged_of_mem hw]
        exact hvc
      obtain ⟨x,hx,-⟩ := mem_itemNames.mp hin
      cases hxv : x.isVertex with
      | true => exact .inl ⟨i,⟨x,hx,hxv⟩,hin' hi ⟨x,hx,hxv⟩,hin⟩
      | false => exact .inr ⟨i,⟨x,hx,hxv⟩,fun he => hin' (hm.ends_mem hq he hi) (he.isVertex hq),hin⟩
    · obtain ⟨hv₀,hvm⟩ := (hc.isVertex_iff hvo).mp hv
      obtain ⟨x,hx,-⟩ := id hv₀
      refine .inl ⟨v,hv₀,?_,(hc.same hx hvm).1 ▸ hn⟩
      rw [← hr.itemOwner_iff hq hf hC hroot hv₀,ItemId.merged_of_not_mem hvm]
      exact hvc
  · obtain ⟨he₀,hem⟩ := hc.isEdge_iff.mp he
    obtain ⟨y,hy,-⟩ := id he₀
    refine .inr ⟨e,he₀,fun hv => ?_,(hc.same hy hem).1 ▸ hn⟩
    rw [← hr.itemOwner_iff hq hf hC hroot (hv.isVertex hq)]
    exact hec (hc.ends hv hem)

include hf in
theorem Orderly.namedWithin_back {b : Annotation} (hv : q.Ends e s v) (hu : q.Ends e (!s) u)
    (hvc : q.itemOwner v = some c) (huc : q.itemOwner u ≠ some c)
    (hb : q.subqueryBounds c = some b) (hmax : b.max.isSome = true) :
    q.NamedAt e (q.NameWithin c) := by
  have hc := hr.changes hq
  have hem : e ∉ a.items := fun hm =>
    huc (((hr.merges hq).goes hq hv.isEdge hm).itemOwner_eq hv hu ▸ hvc)
  rcases subquery_cases hr hq (by rw [hb]; exact Option.some_ne_none b) with
    ⟨hroot,C,hC,hb'⟩|⟨x,p,S,hi,hw,hS⟩
  · refine ((hc.namedAt.mp (h.namedWithin (hc.ends hv hem) (hc.ends hu hem) ?_ ?_ (hb'.trans hb)
      hmax)).1).imp fun n => nameWithin_back hr hq hf hC hroot
    · exact (hr.itemOwner_iff hq hf hC hroot (hv.isVertex hq)).mpr hvc
    · exact fun h => huc ((hr.itemOwner_iff hq hf hC hroot (hu.isVertex hq)).mp h)
  · -- The edge hangs at the vertex that is left of the subquery.
    have hvo := (hw.itemOwner_iff hq).mp hvc
    have huo : u ≠ out := fun h => huc ((hw.itemOwner_iff hq).mpr h)
    have hbo : q'.itemBounds out = some b := by
      rw [hw.itemBounds,if_pos rfl,← hS,hb]
    have hv' := hc.ends hv hem
    have hu' := hc.ends hu hem
    rw [hi,ItemId.merged_self] at hv' hu'
    rw [hvo] at hv'
    refine (hc.namedAt.mp (h.named hv' hu' huo hbo hmax)).1.imp fun n hn => ?_
    obtain ⟨i,hm,hin⟩ := hc.itemNames_out.mp hn
    rw [hi] at hm
    rw [List.mem_singleton.mp hm] at hin
    exact .inl ⟨out,hvo ▸ hv.isVertex hq,(hw.itemOwner_iff hq).mpr rfl,hin⟩

include hf in
/-- A query that is orderly after a reduction was orderly before. -/
theorem Orderly.back : q.Orderly where
  loopless := h.loopless_back hr hq
  unmarked := h.unmarked_back hr hq
  plain := h.plain_back hr hq
  oneSided := h.oneSided_back hr hq hf
  annotated := h.annotated_back hr hq hf
  single := h.single_back hr hq hf
  inner := h.inner_back hr hq hf
  hung := h.hung_back hr hq
  crossed := h.crossed_back hr hq hf
  named := h.named_back hr hq
  namedWithin := h.namedWithin_back hr hq hf

end Back

/-- A query that can be solved is orderly. -/
theorem Solvable.orderly (h : q.WellFormed) (hf : q.Flat) (hs : q.Solvable) : q.Orderly := by
  refine hs.back (P:=fun q => q.Flat → q.Orderly) h (fun hu hc _ => orderly_of_consolidated hu hc) ?_ hf
  intro q q' rule a out hq hr ih hf
  exact (ih (hr.flat hq hf)).back hr hq hf

end Query

end GraphPattern
