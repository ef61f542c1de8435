import GraphPattern.Proofs.Rule.Calm
import GraphPattern.Proofs.Rule.Lineage
import GraphPattern.Proofs.Rule.Orderly
import GraphPattern.Proofs.Rule.Regular

/-!
# What later queries inherit

If the first query is orderly, then much of that order is found in every query that reductions lead
to, whether this one can be solved or not.
-/

namespace GraphPattern.Query

open Rule

variable {q₀ q : Query} {f : ItemId → ItemId} {e v u : ItemId} {s : Bool} {c : ContainerId}

/-- An edge that leads out of a subquery leads to the root. -/
theorem Regular.root_of_crossing (h : q.Regular) (ho : q.Orderly) (hv : q.Ends e s v)
    (hu : q.Ends e (!s) u) (hc : c ≠ .root) (hvc : q.itemOwner v = some c)
    (huc : q.itemOwner u ≠ some c) : q.itemOwner u = some .root := by
  obtain ⟨x,hx,-⟩ := hu.isVertex h.wellFormed
  obtain ⟨d,D,hd,-⟩ := h.wellFormed.itemOwner hx
  by_cases hroot : d = .root
  · rw [hd,hroot]
  -- Otherwise it would lie in one of two subqueries, and lead out of it.
  obtain ⟨t,w,hw,hwo⟩ := h.beside hv.isEdge
  rcases eq_or_opposite t s with rfl|rfl
  · rw [hw.unique hv,hvc] at hwo
    exact absurd (ho.inner hc hwo.symm hv hu hvc) huc
  · rw [hw.unique hu,hd] at hwo
    have hvd := ho.inner hroot hwo.symm hu (by rw [Bool.not_not]; exact hv) hd
    exact absurd (hd.trans (hvd.symm.trans hvc)) huc

namespace Descends

/-- An end of an edge is the place of one. -/
theorem exists_end (h : q₀.Descends q f) (he : q.Ends e s v) : ∃ u, q₀.Ends e s u ∧ f u = v := by
  obtain ⟨u,hu,hv⟩ := (h.ends he.isEdge).mp he
  exact ⟨u,hu,hv.symm⟩

theorem ends_place (h : q₀.Descends q f) (he : q.IsEdge e) (hu : q₀.Ends e s u) :
    q.Ends e s (f u) :=
  (h.ends he).mpr ⟨u,hu,rfl⟩

/-- In the place of an item there is an item. -/
theorem live (h : q₀.Descends q f) (h₀ : q₀.WellFormed) {x : Item} (hx : q₀.item? v = some x) :
    ∃ y, q.item? (f v) = some y := by
  obtain ⟨n,hn⟩ := List.exists_mem_of_ne_nil _ (h₀.named.named hx).nonempty
  obtain ⟨y,hy,-⟩ := mem_itemNames.mp (h.names.mpr ⟨v,rfl,mem_itemNames.mpr ⟨x,hx,hn⟩⟩)
  exact ⟨y,hy⟩

/-- The place of a name is that of the item which has it. -/
theorem names_place (h : q₀.Descends q f) {n : String} (hn : n ∈ q₀.itemNames v) :
    n ∈ q.itemNames (f v) :=
  h.names.mpr ⟨v,rfl,hn⟩

/-- A vertex of the root stays there. -/
theorem owner_root (h : q₀.Descends q f) (hv : q₀.IsVertex v)
    (ho : q₀.itemOwner v = some .root) : q.itemOwner (f v) = some .root := by
  obtain ⟨x,hx,-⟩ := h.vertex hv
  obtain ⟨c,C,hc,hC⟩ := h.wellFormed.itemOwner hx
  by_cases hroot : c = .root
  · rw [hc,hroot]
  · rw [h.home hC hroot hv,ho] at hc
    exact absurd (Option.some.inj hc).symm hroot

section Regular

variable (h₀ : q₀.Regular) (ho : q₀.Orderly) (h : q₀.Descends q f)

include h₀ h

theorem closed : q.Closed := by
  intro e he s
  obtain ⟨v,hv⟩ := h₀.closed (h.edge he).1 s
  exact ⟨f v,h.ends_place he hv⟩

/-- Nothing but an edge itself is in its place. -/
theorem eq_of_place (he : q.IsEdge e) {i : ItemId} {x : Item} (hx : q₀.item? i = some x)
    (hi : f i = e) : i = e := by
  have hvertex : ∀ {v}, q₀.IsVertex v → f v ≠ e := fun hv hve =>
    he.not_isVertex (hve ▸ h.vertex hv)
  cases hxv : x.isVertex with
  | true => exact absurd hi (hvertex ⟨x,hx,hxv⟩)
  | false =>
    by_cases hie : q.IsEdge i
    · exact (h.edge hie).2.symm.trans hi
    · obtain ⟨v,hv⟩ := h₀.closed ⟨x,hx,hxv⟩ true
      exact absurd ((h.gone hie hv).trans hi) (hvertex (hv.isVertex h₀.wellFormed))

/-- An edge has the names that it had. -/
theorem edge_names (he : q.IsEdge e) {n : String} (hn : n ∈ q.itemNames e) :
    n ∈ q₀.itemNames e := by
  obtain ⟨i,hi,hn⟩ := h.names.mp hn
  obtain ⟨x,hx,-⟩ := mem_itemNames.mp hn
  rwa [h.eq_of_place h₀ he hx hi] at hn

/-- An edge that ended nowhere but in a subquery is gone once the subquery is. -/
theorem not_isEdge (hc : q.container? c = none)
    (hin : ∀ {s v}, q₀.Ends e s v → q₀.itemOwner v = some c) : ¬q.IsEdge e := by
  intro he
  obtain ⟨s,v,hv,hvo⟩ := h₀.beside (h.edge he).1
  obtain ⟨y,hy,-⟩ := id he
  obtain ⟨d,D,hd,hD⟩ := h.wellFormed.itemOwner hy
  rw [(h.same he).2.2,← hvo,hin hv] at hd
  cases hd
  rw [hc] at hD
  cases hD

include ho

omit h₀ in
theorem plain (he : q.IsEdge e) : q.itemMarker e = none :=
  (h.same he).2.1.trans (ho.plain (h.edge he).1)

omit h₀ in
theorem oneSided (ha : q.AnnotatedAt e s) : ¬q.AnnotatedAt e (!s) := by
  obtain ⟨v,u,hv,-⟩ := id ha
  rw [h.annotatedAt hv.isEdge] at ha ⊢
  exact ho.oneSided ha

omit h₀ in
theorem annotated_edge (ha : q.AnnotatedAt e s) : q.itemBounds e ≠ none := by
  obtain ⟨v,u,hv,-⟩ := id ha
  rw [h.annotatedAt hv.isEdge] at ha
  rw [(h.same hv.isEdge).1]
  exact ho.annotated ha

omit h₀ in
theorem unmarked (hv : q.IsVertex v) (hb : q.itemBounds v ≠ none) : q.itemMarker v = none := by
  rcases h.annotated hv hb with hk|⟨c,hl⟩
  · rw [hk.marker]
    exact ho.unmarked hk.vertex (hk.bounds ▸ hb)
  · exact hl.marker

/-- At an annotated vertex there is no self-loop. -/
theorem loopless (he : q.Ends e true v) (he' : q.Ends e false v) : q.itemBounds v = none := by
  by_contra hb
  have hedge := he.isEdge
  obtain ⟨a,ha,hav⟩ := h.exists_end he
  obtain ⟨b,hb',hbv⟩ := h.exists_end he'
  have hva := ha.isVertex h₀.wellFormed
  have hvb := hb'.isVertex h₀.wellFormed
  rcases h.annotated (he.isVertex h.wellFormed) hb with hk|⟨c,hl⟩
  · obtain ⟨x,hx,-⟩ := id hva
    obtain ⟨y,hy,-⟩ := id hvb
    rw [hk.only hx hav] at ha
    rw [hk.only hy hbv] at hb'
    exact hb (hk.bounds.trans (ho.loopless ha hb'))
  · -- The self-loop would have gone with the subquery.
    refine h.not_isEdge h₀ hl.gone (fun {s w} hw => ?_) hedge
    cases s with
    | true => rw [hw.unique ha,← hl.fiber hva,hav]
    | false => rw [hw.unique hb',← hl.fiber hvb,hbv]

/-- An edge at a vertex with an upper bound names it. -/
theorem bound_named (hv : q.Ends e s v) (hu : q.Ends e (!s) u) (hne : u ≠ v) {b : Annotation}
    (hb : q.itemBounds v = some b) (hmax : b.max.isSome = true) :
    q.NamedAt e (· ∈ q.itemNames v) := by
  obtain ⟨v₀,hv₀,rfl⟩ := h.exists_end hv
  obtain ⟨u₀,hu₀,rfl⟩ := h.exists_end hu
  rcases h.annotated (hv.isVertex h.wellFormed) (by rw [hb]; exact Option.some_ne_none b) with
    hk|⟨c,hl⟩
  · obtain ⟨x,hx,-⟩ := hv₀.isVertex h₀.wellFormed
    have hplace := (hk.only hx rfl).symm
    have hne₀ : u₀ ≠ v₀ := fun he => hne (by rw [he])
    rw [hk.bounds,hplace] at hb
    have hn := ho.named hv₀ hu₀ hne₀ hb hmax
    exact h.named hv.isEdge (hn.imp fun n => h.names_place)
  · have hv₀c := (hl.fiber (hv₀.isVertex h₀.wellFormed)).mp rfl
    have hu₀c : q₀.itemOwner u₀ ≠ some c := fun hc =>
      hne ((hl.fiber (hu₀.isVertex h₀.wellFormed)).mpr hc)
    have hn := ho.namedWithin hv₀ hu₀ hv₀c hu₀c (hl.bounds.2.symm.trans hb) hmax
    -- Everything within the subquery has become the vertex.
    refine h.named hv.isEdge (hn.imp fun n hn => ?_)
    rcases hn with ⟨w,hw,hwc,hn⟩|⟨e',he',hin,hn⟩
    · rw [← (hl.fiber hw).mpr hwc]
      exact h.names_place hn
    · obtain ⟨w,hw⟩ := h₀.closed he' true
      have hgone := h.gone (h.not_isEdge h₀ hl.gone hin) hw
      rw [← (hl.fiber (hw.isVertex h₀.wellFormed)).mpr (hin hw),hgone]
      exact h.names_place hn

/-- An annotated vertex can be absorbed along the only edge there, by a settled vertex beside it. -/
theorem absorbs (hv : q.Ends e (!s) v) (hu : q.Ends e s u) (hne : v ≠ u)
    (hb : q.itemBounds u ≠ none) (hvs : q.SettledAt v) (hc : q.itemOwner v = q.itemOwner u)
    (alone : ∀ {f t}, q.Ends f t u → f = e) : q.Absorbs v e s u where
  far := hu
  near := hv
  ne := hne
  annotated := hb
  settled := hvs
  together := hc
  edge := h.annotated_edge ho ⟨u,v,hu,hv,hne.symm,.inl hb⟩
  unmarked := ⟨h.plain ho hu.isEdge,h.unmarked ho (hu.isVertex h.wellFormed) hb⟩
  alone := alone
  named := h.bound_named h₀ ho hu hv hne

end Regular

end Descends

end GraphPattern.Query
