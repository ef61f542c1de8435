import GraphPattern.Proofs.Plan.Solution

/-!
# What planning conserves

Reductions merge items, so names move, but none is lost and none comes up. An end of an edge that is
known stays known, one that is not stays open. An annotated vertex is left alone, with all its
edges, until it is absorbed, and from then on its number is not used again.
-/

namespace GraphPattern

open Relation Rule

/-- The first vertex is like the second one, and the same edges end there. -/
structure Item.Unchanged (y x : Item) : Prop where
  /-- The same names. -/
  names : y.names = x.names
  /-- The same class. -/
  kind : y.kind = x.kind
  /-- The same condition. -/
  condition : y.condition = x.condition
  /-- The same annotation. -/
  bounds : y.bounds = x.bounds
  /-- The same edges. -/
  edges : y.edges? = x.edges?

namespace Query

variable {q₀ q q' : Query} {rule : Rule} {a : Application} {v out : ItemId} {x y : Item}

/-! ## Numbers -/

theorem nextItem_foldl {α : Type} {g : Query → α → Query}
    (hg : ∀ q a, (g q a).nextItem = q.nextItem) (as : List α) (q : Query) :
    (as.foldl g q).nextItem = q.nextItem := by
  induction as generalizing q with
  | nil => rfl
  | cons a as ih => rw [List.foldl_cons,ih,hg]

theorem nextItem_moveEdges (old new : ItemId) (es : List ItemId) (q : Query) :
    (es.foldl (moveEdge old new) q).nextItem = q.nextItem :=
  nextItem_foldl (fun q e => by rw [moveEdge,nextItem_mapItem,nextItem_mapItem]) es q

theorem nextItem_mapItems (is : List ItemId) (f : ItemId → Item → Item) (q : Query) :
    (is.foldl (fun q i => q.mapItem i (f i)) q).nextItem = q.nextItem :=
  nextItem_foldl (fun q i => nextItem_mapItem q i (f i)) is q

theorem nextItem_withoutEdge (c : ContainerId) (e : ItemId) (ends : EdgeEnds) (q : Query) :
    (q.withoutEdge c e ends).nextItem = q.nextItem := by
  rw [withoutEdge,nextItem_dropItem,mapEndVertices]
  exact nextItem_mapItems _ (fun _ => Item.detach e) _

theorem nextItem_withAbsorbed (c d : ContainerId) (e : ItemId) (ends : EdgeEnds)
    (old new : ItemId) (moved : List ItemId) (q : Query) :
    (q.withAbsorbed c d e ends old new moved).nextItem = q.nextItem := by
  rw [withAbsorbed,withoutVertex,nextItem_dropItem]
  change (withEmptied q c e ends old new moved).nextItem = q.nextItem
  rw [withEmptied,nextItem_foldl (fun q f => nextItem_mapItem q old (Item.detach f)),
    nextItem_moveEdges,nextItem_withoutEdge]

theorem nextItem_withLifted (p s : ContainerId) (S : Container) (q : Query) :
    ((q.withLifted p s S).withoutSubquery p s).nextItem = q.nextItem := by
  have hnested := nextItem_foldl (g:=fun q n => q.mapContainer n (Container.reparent p))
    (fun _ _ => rfl) S.subqueries
  have hitems := nextItem_mapItems (S.vertices ++ S.edges)
    (fun _ item => { item with container := some p })
  exact (hnested _).trans (hitems _)

/-- A number that was given out stays so, and the vertex that comes out of a reduction has a new
number or that of a live vertex. -/
theorem numbers_of_reduction (hr : Reduction q rule a q' out) : q.items.next ≤ q'.items.next ∧
    ((∃ x, q.item? out = some x) ∨ out.index = q.items.next) := by
  have hsame : ∀ {p : Query}, p.nextItem = q.nextItem → q.items.next ≤ p.items.next := fun h =>
    Nat.le_of_eq (congrArg ItemId.index h).symm
  cases hr with
  | @getVertex v x edges c live =>
    refine ⟨?_,.inr rfl⟩
    have hpush : (q.withReplaced c v edges (Item.bare (orderedSet x.names) (.vertex true
        []))).nextItem = ⟨q.items.next+1⟩ := by
      rw [withReplaced,nextItem_moveEdges]
      change ItemId.mk (Arena.next (Arena.push _ _)) = _
      rw [Arena.next_push,dropItem,Arena.next_erase]
    have := congrArg ItemId.index hpush
    change Arena.next _ = q.items.next+1 at this
    omega
  | absorbSelfLoop live =>
    exact ⟨hsame (by rw [nextItem_mapItem,nextItem_withoutEdge]),.inl ⟨_,live⟩⟩
  | collapseEdge able =>
    exact ⟨hsame (by rw [nextItem_mapItem,nextItem_withAbsorbed]),.inl ⟨_,able.kept⟩⟩
  | absorbAnnotatedVertex able =>
    exact ⟨hsame (by rw [nextItem_mapItem,nextItem_withAbsorbed]),.inl ⟨_,able.kept⟩⟩
  | applyUpperLimit live => exact ⟨hsame (nextItem_mapItem _ _ _),.inl ⟨_,live⟩⟩
  | eliminateSubquery live =>
    exact ⟨hsame (by rw [nextItem_mapItem,nextItem_withLifted]),.inl ⟨_,live⟩⟩
  | processConstraint live => exact ⟨Nat.le_refl _,.inl ⟨_,live⟩⟩

/-! ## The invariant -/

/-- The vertex is gone for good, and a composite vertex has its names. -/
structure Gone (q : Query) (v : ItemId) (x : Item) : Prop where
  /-- It is not live. -/
  missing : q.item? v = none
  /-- Its number has been given out. -/
  used : v.index<q.items.next
  /-- A composite vertex has its names. -/
  carried : ∃ j y, q.item? j = some y ∧ y.kind = .composite ∧ ∀ n ∈ x.names, n ∈ y.names

/-- What reductions from the first query to the second one have left. -/
structure Conserves (q₀ q : Query) : Prop where
  /-- The names are the same. -/
  names : ∀ n, (∃ i, n ∈ q.itemNames i) ↔ ∃ i, n ∈ q₀.itemNames i
  /-- An edge has the ends that it had, which are known if they were. -/
  edge : ∀ {e y ends}, q.item? e = some y → y.ends? = some ends → ∃ y₀ ends₀,
    q₀.item? e = some y₀ ∧ y₀.ends? = some ends₀ ∧ ends.sourceName = ends₀.sourceName ∧
      ends.targetName = ends₀.targetName ∧ ∀ s, ends.at? s = none ↔ ends₀.at? s = none
  /-- An annotated vertex is what it was, or it is gone. -/
  annotated : ∀ {v x}, q₀.item? v = some x → x.isVertex = true → x.bounds ≠ none →
    (∃ y, q.item? v = some y ∧ y.Unchanged x) ∨ q.Gone v x

theorem Conserves.refl (q : Query) : q.Conserves q where
  names _ := Iff.rfl
  edge hy he := ⟨_,_,hy,he,rfl,rfl,fun _ => Iff.rfl⟩
  annotated hx _ _ := .inl ⟨_,hx,rfl,rfl,rfl,rfl,rfl⟩

section Step

variable (hr : Reduction q rule a q' out) (hq : q.WellFormed)

include hr hq

/-- Reductions move names about. -/
theorem names_of_reduction (n : String) : (∃ i, n ∈ q'.itemNames i) ↔ ∃ i, n ∈ q.itemNames i := by
  have hc := hr.changes hq
  constructor
  · rintro ⟨i,hi⟩
    by_cases hio : i = out
    · obtain ⟨j,-,hj⟩ := hc.itemNames_out.mp (hio ▸ hi)
      exact ⟨j,hj⟩
    · obtain ⟨y,hy,hn⟩ := mem_itemNames.mp hi
      obtain ⟨-,x,hx,hf⟩ := hc.back hy hio
      exact ⟨i,mem_itemNames.mpr ⟨x,hx,hf.names ▸ hn⟩⟩
  · rintro ⟨i,hi⟩
    by_cases him : i ∈ a.items
    · exact ⟨out,hc.itemNames_out.mpr ⟨i,him,hi⟩⟩
    · obtain ⟨x,hx,-⟩ := mem_itemNames.mp hi
      exact ⟨i,(hc.same hx him).1 ▸ hi⟩

/-- An annotated vertex that takes part in a reduction is gone afterwards, and one that does not is
what it was. -/
theorem unchanged_or_gone (hx : q.item? v = some x) (hv : x.isVertex = true)
    (hb : x.bounds ≠ none) : (∃ y, q'.item? v = some y ∧ y.Unchanged x) ∨ q'.Gone v x := by
  have hc := hr.changes hq
  by_cases hm : v ∈ a.items
  · obtain ⟨e,s,-,ha⟩ := (hr.merges hq).absorbs ⟨x,hx,hv⟩ (by rwa [itemBounds_of_some hx]) hm
    refine .inr ⟨?_,Nat.lt_of_lt_of_le (index_lt_of_item? hx) (numbers_of_reduction hr).1,?_⟩
    · cases hy : q'.item? v with
      | none => rfl
      | some y => exact absurd hm (hc.back hy ha.ne.symm).1
    · obtain ⟨y,hy,hk,hn⟩ := hc.out
      exact ⟨out,y,hy,hk,fun n hxn => (hn n).mpr ⟨v,hm,x,hx,hxn⟩⟩
  · obtain ⟨-,y,hy,hf⟩ := hc.forth hx hm
    obtain ⟨es,hes⟩ := Item.isVertex_iff.mp hv
    obtain ⟨fs,hfs⟩ := Item.isVertex_iff.mp
      (Item.isVertex_iff_kind.mpr (hf.kind ▸ Item.isVertex_iff_kind.mp hv))
    have hq' := (hr.applied hq).2
    -- No edge goes that ends at the vertex, and no end of another edge comes there.
    have hmem : ∀ f, f ∈ fs ↔ f ∈ es := fun f => by
      rw [hq'.incident.joined hy hfs,hq.incident.joined hx hes,← exists_ends_iff,← exists_ends_iff]
      refine exists_congr fun s => ⟨fun hs => ?_,fun hs => (edge_stays hr hq hs hm).2⟩
      obtain ⟨-,u,hu,huv⟩ := hc.ends_iff.mp hs
      exact (hc.merged_eq_iff hx hm).mp huv.symm ▸ hu
    have hlist : fs = es := ((List.perm_ext_iff_of_nodup (hq'.incident.nodup_edges hy hfs)
      (hq.incident.nodup_edges hx hes)).mpr hmem).eq_of_pairwise
        (fun _ _ _ _ h h' => absurd h (Nat.lt_asymm h'))
        (hq'.incident.increasing hy hfs) (hq.incident.increasing hx hes)
    exact .inl ⟨y,hy,hf.names,hf.kind,hf.condition,hf.bounds,by rw [hfs,hes,hlist]⟩

/-- What is gone stays gone. -/
theorem Gone.step (h : q.Gone v x) : q'.Gone v x := by
  have hc := hr.changes hq
  obtain ⟨hnext,hout⟩ := numbers_of_reduction hr
  refine ⟨?_,Nat.lt_of_lt_of_le h.used hnext,?_⟩
  · cases hy : q'.item? v with
    | none => rfl
    | some y =>
      have hne : v ≠ out := by
        rintro rfl
        rcases hout with ⟨z,hz⟩|hout
        · rw [h.missing] at hz
          cases hz
        · exact absurd hout (Nat.ne_of_lt h.used)
      obtain ⟨-,z,hz,-⟩ := hc.back hy hne
      rw [h.missing] at hz
      cases hz
  · obtain ⟨j,y,hy,hk,hn⟩ := h.carried
    by_cases hm : j ∈ a.items
    · obtain ⟨z,hz,hzk,hzn⟩ := hc.out
      exact ⟨out,z,hz,hzk,fun n hxn => (hzn n).mpr ⟨j,hm,y,hy,hn n hxn⟩⟩
    · obtain ⟨-,z,hz,hf⟩ := hc.forth hy hm
      exact ⟨j,z,hz,hf.kind.trans hk,fun n hxn => hf.names ▸ hn n hxn⟩

/-- What a reduction conserves. -/
theorem Conserves.step (h : q₀.Conserves q) : q₀.Conserves q' where
  names n := (names_of_reduction hr hq n).trans (h.names n)
  edge := by
    intro e y ends hy he
    obtain ⟨-,x,ends₁,hx,he₁,rfl,-⟩ := (hr.changes hq).edge_back hy he
    obtain ⟨y₀,ends₀,hy₀,he₀,hs,ht,hat⟩ := h.edge hx he₁
    refine ⟨y₀,ends₀,hy₀,he₀,hs,ht,fun s => ?_⟩
    rw [EdgeEnds.at?_follow,Option.map_eq_none_iff,hat]
  annotated := by
    intro v x hx hv hb
    rcases h.annotated hx hv hb with ⟨y,hy,hyx⟩|hgone
    · have hyv := Item.isVertex_iff_kind.mpr (hyx.kind ▸ Item.isVertex_iff_kind.mp hv)
      rcases unchanged_or_gone hr hq hy hyv (hyx.bounds ▸ hb) with ⟨z,hz,hzy⟩|hz
      · exact .inl ⟨z,hz,hzy.names.trans hyx.names,hzy.kind.trans hyx.kind,
          hzy.condition.trans hyx.condition,hzy.bounds.trans hyx.bounds,
          hzy.edges.trans hyx.edges⟩
      · exact .inr ⟨hz.missing,hz.used,by rw [← hyx.names]; exact hz.carried⟩
    · exact .inr (hgone.step hr hq)

end Step

/-- What reductions conserve. -/
theorem conserves_of_reflTransGen (h : q₀.WellFormed) (hr : ReflTransGen ReducesTo q₀ q) :
    q₀.Conserves q := by
  induction hr with
  | refl => exact .refl q₀
  | tail hrest hstep ih =>
    obtain ⟨rule,a,out,hred⟩ := hstep
    exact ih.step hred (wellFormed_of_reflTransGen h hrest)

/-! ## What can be seen of it -/

/-- The names of the first query are where they belong in the second one. -/
structure KeepsNames (q₀ q : Query) : Prop where
  /-- Every name of the first query is the name of exactly one item. -/
  one : ∀ {i x n}, q₀.item? i = some x → n ∈ x.names → ∃! j, ∃ y, q.item? j = some y ∧ n ∈ y.names
  /-- There are no other names. -/
  old : ∀ {j y n}, q.item? j = some y → n ∈ y.names → ∃ i x, q₀.item? i = some x ∧ n ∈ x.names
  /-- The vertex at the first end of an edge has the name written for that end. -/
  source : ∀ {e y ends v}, q.item? e = some y → y.ends? = some ends → ends.source = some v →
    ∃ x, q.item? v = some x ∧ x.isVertex = true ∧ ends.sourceName ∈ x.names
  /-- The vertex at the second end has the name written for that one. -/
  target : ∀ {e y ends v}, q.item? e = some y → y.ends? = some ends → ends.target = some v →
    ∃ x, q.item? v = some x ∧ x.isVertex = true ∧ ends.targetName ∈ x.names
  /-- Two different ends share no name. -/
  apart : ∀ {e y ends v u x z n}, q.item? e = some y → y.ends? = some ends →
    ends.both? = some (v,u) → v ≠ u → q.item? v = some x → q.item? u = some z → n ∈ x.names →
      n ∉ z.names
  /-- An edge is one of the first query, with the names written there, and its ends are open where
  they were open. -/
  edge : ∀ {e y ends}, q.item? e = some y → y.ends? = some ends → ∃ y₀ ends₀,
    q₀.item? e = some y₀ ∧ y₀.ends? = some ends₀ ∧ ends.sourceName = ends₀.sourceName ∧
      ends.targetName = ends₀.targetName ∧ (ends.source = none ↔ ends₀.source = none) ∧
      (ends.target = none ↔ ends₀.target = none)
  /-- An annotated plain vertex is what it was, with all its edges, or it is gone and a composite
  vertex has its name. -/
  annotated : ∀ {v x}, q₀.item? v = some x → x.kind = .vertex → x.bounds ≠ none →
    (∃ y, q.item? v = some y ∧ y.Unchanged x) ∨ (q.item? v = none ∧
      ∃ j y, q.item? j = some y ∧ y.kind = .composite ∧ ∀ n ∈ x.names, n ∈ y.names)
  /-- If the second query is consolidated, then its vertex has the names of all vertices and edges
  of the first one. -/
  all : q.isConsolidated = true → ∃ R v x, q.container? .root = some R ∧ R.vertices = [v] ∧
    q.item? v = some x ∧ x.kind = .composite ∧
      ∀ i ∈ q₀.vertices .whole ++ q₀.edges .whole, ∀ n ∈ q₀.itemNames i, n ∈ x.names

/-- What is conserved and what the rules can work on determine where names are. -/
theorem Conserves.keepsNames (h : q₀.Conserves q) (hq : q.Reducible) : q₀.KeepsNames q where
  one {i x n} hx hn := by
    obtain ⟨j,hj⟩ := (h.names n).mpr ⟨i,mem_itemNames.mpr ⟨x,hx,hn⟩⟩
    obtain ⟨y,hy,hny⟩ := mem_itemNames.mp hj
    refine ⟨j,⟨y,hy,hny⟩,fun k ⟨z,hz,hnz⟩ => ?_⟩
    exact hq.wellFormed.named.disjoint hz hy hnz hny
  old {j y n} hy hn := by
    obtain ⟨i,hi⟩ := (h.names n).mp ⟨j,mem_itemNames.mpr ⟨y,hy,hn⟩⟩
    obtain ⟨x,hx,hnx⟩ := mem_itemNames.mp hi
    exact ⟨i,x,hx,hnx⟩
  source hy he hv := by
    obtain ⟨x,hx,hn⟩ := hq.source hy he hv
    obtain ⟨z,hz,hzv⟩ := hq.wellFormed.incident.ended hy ⟨_,he,.inl hv⟩
    rw [hx] at hz
    cases hz
    exact ⟨x,hx,hzv,hn⟩
  target hy he hv := by
    obtain ⟨x,hx,hn⟩ := hq.target hy he hv
    obtain ⟨z,hz,hzv⟩ := hq.wellFormed.incident.ended hy ⟨_,he,.inr hv⟩
    rw [hx] at hz
    cases hz
    exact ⟨x,hx,hzv,hn⟩
  apart _ _ _ hne hx hz hn hn' := hne (hq.wellFormed.named.disjoint hx hz hn hn')
  edge hy he := by
    obtain ⟨y₀,ends₀,hy₀,he₀,hs,ht,hat⟩ := h.edge hy he
    exact ⟨y₀,ends₀,hy₀,he₀,hs,ht,hat true,hat false⟩
  annotated hx hk hb := by
    rcases h.annotated hx (Item.isVertex_of_kind (.inl hk)) hb with hsame|hgone
    · exact .inl hsame
    · exact .inr ⟨hgone.missing,hgone.carried⟩
  all hc := by
    obtain ⟨R,v,x,hR,hv,-,-,-,hx,hset⟩ := consolidated_iff.mp hc
    refine ⟨R,v,x,hR,hv,hx,hset.kind,fun i _ n hn => ?_⟩
    obtain ⟨j,hj⟩ := (h.names n).mpr ⟨i,hn⟩
    obtain ⟨y,hy,hny⟩ := mem_itemNames.mp hj
    -- There is no other item that could have the name.
    obtain ⟨w,-,-,-,honly,-⟩ := eq_of_consolidated hq.wellFormed hc
    cases (honly j y hy).trans (honly v x hx).symm
    rw [hx] at hy
    cases hy
    exact hny

end Query

namespace Plan

variable {rules : List Rule} {config : SearchConfig} {q : Query} {plan : Plan}

/-- Names are conserved by planning. For every query that is built, all rules of the library, every
configuration and every state of the search: the names are the same, each with one item; an edge
still names the vertices at its ends, and what was open is open; an annotated vertex is untouched
until a composite vertex has its name; and if the query is consolidated, its vertex has all
names. -/
theorem keepsNames_state {d : Description} (hq : d.build = .ok q)
    (hr : ∀ rule ∈ rules, rule ∈ Rule.builtIn) (h : ofQuery rules config q = .ok plan) {s : StateId}
    {st : SearchState} (hs : plan.graph.state? s = some st) : q.KeepsNames st.query := by
  have hw := Description.written_build hq
  obtain ⟨o,p,hrun,rfl⟩ := run_of_ofQuery h
  have hf := (Search.run_kept hrun).faithful
  have hred : st.query.Reducible := hf.preserved hw.reducible (fun hq hx => by
    obtain ⟨-,-,hq'⟩ := SearchGraph.reducible_of_carries hr hq hx
    exact hq') hs
  exact (Query.conserves_of_reflTransGen hw.wellFormed (hf.reduced hr hw.wellFormed hs)).keepsNames
    hred

/-- The last state of the search for a vertex that occurs at most twice is one vertex with all
names. -/
theorem keepsNames_state_limited : ∃ q plan s st R v x, limited.build = .ok q ∧
    ofQuery Rule.builtIn .standard q = .ok plan ∧ plan.graph.state? s = some st ∧
      st.query.container? .root = some R ∧ R.vertices = [v] ∧ st.query.item? v = some x ∧
      ∀ i ∈ q.vertices .whole ++ q.edges .whole, ∀ n ∈ q.itemNames i, n ∈ x.names := by
  obtain ⟨q,plan,hq,-,hplan,hc⟩ := exists_planned (d:=limited) (c:=fun _ plan =>
      (plan.graph.state? ⟨3⟩).any fun st => st.query.isConsolidated) (by
    rw [Description.build,Description.addAll_flat rfl]
    decide +kernel)
  obtain ⟨st,hst,hcons⟩ := Option.any_eq_true _ _ |>.mp hc
  obtain ⟨R,v,x,hR,hv,hx,-,hall⟩ := (keepsNames_state hq (fun _ hr => hr) hplan hst).all hcons
  exact ⟨q,plan,⟨3⟩,st,R,v,x,hq,hplan,hst,hR,hv,hx,hall⟩

end Plan

end GraphPattern
