import GraphPattern.Proofs.Query.Additions

/-!
# Removing from a query

Removals of a well-formed query: when they succeed, what is left, and that they are refused in
every other case. What a removal leaves is well formed.
-/

namespace GraphPattern.Query

open Step

variable {q : Query}

theorem WellFormed.owner (h : q.WellFormed) {i : ItemId} {x : Item} (hx : q.item? i = some x) :
    ∃ c C, x.container = some c ∧ q.container? c = some C :=
  let ⟨c,C,hc,hC,_⟩ := h.owned.owner hx
  ⟨c,C,hc,hC⟩

theorem takeItem_ok {i : ItemId} {x : Item} (hx : q.item? i = some x) :
    takeItem i q = .ok { x with container := none } (q.dropItem i) := by
  simp only [takeItem,bind_apply,get_apply,item_of_some hx,lift_ok,modify_apply,pure_apply]
  rfl

/-! ## Edges -/

/-- The query without an edge, of which the vertices at its ends know nothing either. -/
def withoutEdge (q : Query) (c : ContainerId) (e : ItemId) (ends : EdgeEnds) : Query :=
  (mapEndVertices ends (Item.detach e)
    (q.mapContainer c fun C => { C with edges := C.edges.filter (· ≠ e) })).dropItem e

theorem removeEdge_ok (h : q.WellFormed) {e : ItemId} {x : Item} {ends : EdgeEnds}
    {c : ContainerId} (hx : q.item? e = some x) (he : x.ends? = some ends)
    (hc : x.container = some c) :
    removeEdge e q = .ok { x with container := none } (q.withoutEdge c e ends) := by
  obtain ⟨d,C,hd,hC⟩ := h.owner hx
  rw [hc] at hd
  cases hd
  have hl : (q.container? c).isSome = true := by rw [hC]; rfl
  have hlive : ∀ v, ends.Touches v → ∃ y, q.item? v = some y ∧ y.isVertex = true :=
    fun v hv => h.incident.ended hx ⟨ends,he,hv⟩
  have hne := h.incident.not_touches_self hx he
  let p := q.mapContainer c fun C => { C with edges := C.edges.filter (· ≠ e) }
  have hloop : ([ends.source,ends.target].reduceOption.forM fun vertex => do
      if (← get).hasItem vertex then modifyItem vertex (Item.detach e) : QueryEdit PUnit) p =
      .ok ⟨⟩ (mapEndVertices ends (Item.detach e) p) := by
    refine (forM_apply (P:=fun p : Query => ∀ v, ends.Touches v → (p.item? v).isSome = true)
      (g:=fun p v => p.mapItem v (Item.detach e)) (fun v hv p hp => ?_) fun v hv => ?_).1
    · have hv := hp v (mem_reduceOption_ends.mp hv)
      refine ⟨?_,fun w hw => ?_⟩
      · rw [bind_of_ok (get_apply p)]
        simp only [hasItem,hv,if_true]
        exact modifyItem_ok hv
      · rw [(Rewired.mapItem (Item.sameButIncidence_detach e) p v).isSome]
        exact hp w hw
    · obtain ⟨y,hy,-⟩ := hlive v hv
      rw [item?_mapContainer,hy]
      rfl
  have hend : (mapEndVertices ends (Item.detach e) p).item? e = some x := by
    rw [item?_mapEndVertices (fun x => Item.detach_detach e x),item?_mapContainer,hx,
      Option.map_some,if_neg hne]
  simp only [removeEdge,bind_apply,get_apply,item_of_some hx,lift_ok,edgeEnds_of_some hx he,hc,
    modifyContainer_ok hl]
  exact (bind_of_ok hloop _).trans (takeItem_ok hend)

theorem removeEdge_cases (h : q.WellFormed) (e : ItemId) : Refuses (removeEdge e) q ∨
    ∃ x ends c, q.item? e = some x ∧ x.ends? = some ends ∧ x.container = some c := by
  rcases edgeEnds_cases q e with ⟨err,he⟩|⟨x,ends,hx,he,-⟩
  · left
    cases hx : q.item? e with
    | none => simp [Refuses,removeEdge,bind_apply,item_of_none hx]
    | some x => simp [Refuses,removeEdge,bind_apply,item_of_some hx,he]
  · obtain ⟨c,C,hc,-⟩ := h.owner hx
    exact .inr ⟨x,ends,c,hx,he,hc⟩

theorem item?_withoutEdge (q : Query) (c : ContainerId) (e : ItemId) (ends : EdgeEnds)
    (j : ItemId) : (q.withoutEdge c e ends).item? j = if j = e then none else
      (q.item? j).map fun x => if ends.Touches j then x.detach e else x := by
  rw [withoutEdge,item?_dropItem,item?_mapEndVertices (fun x => Item.detach_detach e x),
    item?_mapContainer]

theorem WellFormed.withoutEdge (h : q.WellFormed) {e : ItemId} {x : Item} {ends : EdgeEnds}
    {c : ContainerId} (hx : q.item? e = some x) (he : x.ends? = some ends)
    (hc : x.container = some c) : (q.withoutEdge c e ends).WellFormed := by
  obtain ⟨d,C,hd,hC⟩ := h.owner hx
  rw [hc] at hd
  cases hd
  have hxe : x.isVertex = false := Item.not_isVertex_iff.mpr ⟨ends,he⟩
  have hcont : ∀ d, (q.withoutEdge c e ends).container? d =
      ((q.mapContainer c fun C => { C with edges := C.edges.filter (· ≠ e) }).dropItem
        e).container? d := fun d =>
    (rewired_mapEndVertices ends (Item.sameButIncidence_detach e) _).container? d
  constructor
  · have howned : ((q.mapContainer c fun C =>
        { C with edges := C.edges.filter (· ≠ e) }).dropItem e).Owned := by
      refine h.owned.drop hx hc hC fun b => ?_
      rw [hxe]
      cases b <;> rfl
    refine howned.of_same (fun j => ?_) fun d => by rw [hcont d]
    rw [item?_withoutEdge,item?_dropItem,item?_mapContainer]
    split
    · rfl
    · cases q.item? j with
      | none => rfl
      | some y =>
        rw [Option.map_some]
        split
        · have hy := Item.sameButIncidence_detach e y
          rw [Option.map_some,Option.map_some,hy.isVertex,hy.container]
        · rfl
  · refine h.nested.of_same fun d => ?_
    rw [hcont,container?_dropItem,container?_mapContainer]
    split
    · cases q.container? d with
      | none => rfl
      | some C => rfl
    · rfl
  · refine h.named.of_sub fun i z hz => ?_
    rw [item?_withoutEdge] at hz
    split at hz
    · cases hz
    · obtain ⟨y,hy,rfl⟩ := Option.map_eq_some_iff.mp hz
      have hs := Item.sameButIncidence_detach e y
      refine ⟨y,hy,?_⟩
      split
      · exact ⟨hs.names,hs.isComposite⟩
      · exact ⟨rfl,rfl⟩
  · exact h.incident.dropEdge hx he fun j => item?_withoutEdge q c e ends j

/-! ## Vertices -/

/-- The query without a vertex. -/
def withoutVertex (q : Query) (c : ContainerId) (v : ItemId) : Query :=
  (q.mapContainer c fun C => { C with vertices := C.vertices.filter (· ≠ v) }).dropItem v

theorem removeVertex_ok (h : q.WellFormed) {v : ItemId} {x : Item} {c : ContainerId}
    (hx : q.item? v = some x) (he : x.edges? = some []) (hc : x.container = some c) :
    removeVertex v q = .ok { x with container := none } (q.withoutVertex c v) := by
  obtain ⟨d,C,hd,hC⟩ := h.owner hx
  rw [hc] at hd
  cases hd
  have hl : (q.container? c).isSome = true := by rw [hC]; rfl
  simp only [removeVertex,bind_apply,get_apply,vertexEdges_of_some hx he,lift_ok,item_of_some hx,
    List.isEmpty_nil,Bool.not_true,Bool.false_eq_true,if_false,hc,modifyContainer_ok hl]
  exact takeItem_ok hx

theorem removeVertex_cases (h : q.WellFormed) (v : ItemId) : Refuses (removeVertex v) q ∨
    ∃ x c, q.item? v = some x ∧ x.edges? = some [] ∧ x.container = some c := by
  rcases vertexEdges_cases q v with ⟨err,he⟩|⟨x,edges,hx,hxe,he⟩
  · left; simp [Refuses,removeVertex,bind_apply,he]
  · obtain ⟨c,C,hc,-⟩ := h.owner hx
    cases edges with
    | nil => exact .inr ⟨x,c,hx,hxe,hc⟩
    | cons => left; simp [Refuses,removeVertex,bind_apply,he,item_of_some hx]

theorem WellFormed.withoutVertex (h : q.WellFormed) {v : ItemId} {x : Item} {c : ContainerId}
    (hx : q.item? v = some x) (he : x.edges? = some []) (hc : x.container = some c) :
    (q.withoutVertex c v).WellFormed where
  owned := by
    obtain ⟨d,C,hd,hC⟩ := h.owner hx
    rw [hc] at hd
    cases hd
    refine h.owned.drop hx hc hC fun b => ?_
    rw [Item.isVertex_iff.mpr ⟨[],he⟩]
    cases b <;> rfl
  nested := h.nested.of_same fun d => by
    rw [Query.withoutVertex,container?_dropItem,container?_mapContainer]
    split
    · cases q.container? d with
      | none => rfl
      | some C => rfl
    · rfl
  named := h.named.of_sub fun i y hy => by
    rw [Query.withoutVertex,item?_dropItem,item?_mapContainer] at hy
    split at hy
    · cases hy
    · exact ⟨y,hy,rfl,rfl⟩
  incident := by
    have hc : (q.mapContainer c fun C =>
        { C with vertices := C.vertices.filter (· ≠ v) }).Incident := h.incident.of_same fun j => rfl
    exact hc.dropVertex hx he

/-! ## Subqueries -/

/-- The query without a subquery. -/
def withoutSubquery (q : Query) (p s : ContainerId) : Query :=
  (q.mapContainer p fun C => { C with subqueries := C.subqueries.filter (· ≠ s) }).dropContainer s

theorem removeSubquery_ok (h : q.WellFormed) {s p : ContainerId} {S : Container}
    (hs : q.container? s = some S) (hp : S.parent? = some p) (he : S.isEmpty = true) :
    removeSubquery s q = .ok S (q.withoutSubquery p s) := by
  obtain ⟨P,hP,-⟩ := h.nested.listed hs hp
  have hl : (q.container? p).isSome = true := by rw [hP]; rfl
  simp only [removeSubquery,bind_apply,get_apply,container_of_some hs,lift_ok,hp,he,Bool.not_true,
    Bool.false_eq_true,if_false,modifyContainer_ok hl]
  rfl

theorem removeSubquery_cases (q : Query) (s : ContainerId) : Refuses (removeSubquery s) q ∨
    ∃ S p, q.container? s = some S ∧ S.parent? = some p ∧ S.isEmpty = true := by
  cases hs : q.container? s with
  | none => left; simp [Refuses,removeSubquery,bind_apply,container_of_none hs]
  | some S =>
    cases hp : S.parent? with
    | none => left; simp [Refuses,removeSubquery,bind_apply,container_of_some hs,hp]
    | some p =>
      cases he : S.isEmpty with
      | false => left; simp [Refuses,removeSubquery,bind_apply,container_of_some hs,hp,he]
      | true => exact .inr ⟨S,p,rfl,hp,he⟩

theorem isEmpty_iff {S : Container} :
    S.isEmpty = true ↔ S.vertices = [] ∧ S.edges = [] ∧ S.subqueries = [] := by
  simp [Container.isEmpty,and_assoc]

theorem WellFormed.withoutSubquery (h : q.WellFormed) {s p : ContainerId} {S : Container}
    (hs : q.container? s = some S) (hp : S.parent? = some p) (he : S.isEmpty = true) :
    (q.withoutSubquery p s).WellFormed where
  owned := by
    obtain ⟨hv,hed,-⟩ := isEmpty_iff.mp he
    have hmap : (q.mapContainer p fun C =>
        { C with subqueries := C.subqueries.filter (· ≠ s) }).Owned :=
      h.owned.of_same (fun j => rfl) fun d => by
        rw [container?_mapContainer]
        split
        · cases q.container? d with
          | none => rfl
          | some C => rfl
        · rfl
    have hempty : ∀ b, S.members b = [] := fun b => by
      cases b
      · exact hed
      · exact hv
    by_cases hps : s = p
    · refine hmap.dropContainer (C:={ S with subqueries := S.subqueries.filter (· ≠ s) }) ?_ hempty
      rw [container?_mapContainer,if_pos hps,hs]
      rfl
    · refine hmap.dropContainer (C:=S) ?_ hempty
      rw [container?_mapContainer,if_neg hps,hs]
  nested := by
    obtain ⟨P,hP,-⟩ := h.nested.listed hs hp
    exact h.nested.drop hs (isEmpty_iff.mp he).2.2 hp hP ⟨rfl,rfl⟩
  named := h.named.of_sub fun i x hx => ⟨x,hx,rfl,rfl⟩
  incident := h.incident.of_same fun j => rfl

/-! ## Constraints, links and cached items -/

/-- A change of the first container that it applies to finds none, or changes one. -/
theorem updateFirst_cases {α : Type} (change : Container → Option (α × Container)) (q : Query) :
    (updateFirst change q = .ok none q ∧ ∀ c C, q.container? c = some C → change C = none) ∨
    ∃ c C a D, q.container? c = some C ∧ change C = some (a,D) ∧
      updateFirst change q = .ok (some a) (q.mapContainer c fun _ => D) := by
  cases hf : q.containers.indexed.findSome? fun e => (change e.2).map (e.1,·) with
  | none =>
    refine .inl ⟨by simp only [updateFirst,bind_apply,get_apply,hf,pure_apply],fun c C hC => ?_⟩
    rw [List.findSome?_eq_none_iff] at hf
    exact Option.map_eq_none_iff.mp (hf (c.index,C) (Arena.mem_indexed.mpr hC))
  | some found =>
    obtain ⟨⟨index,C⟩,hm,he⟩ := List.exists_of_findSome?_eq_some hf
    obtain ⟨⟨a,D⟩,hD,rfl⟩ := Option.map_eq_some_iff.mp he
    refine .inr ⟨⟨index⟩,C,a,D,Arena.mem_indexed.mp hm,hD,?_⟩
    simp only [updateFirst,bind_apply,get_apply,hf,set_apply,pure_apply]
    rfl

/-- What is taken out of a list is the first of its kind. -/
theorem takeFirst_first {α : Type} {p : α → Bool} {as bs : List α} {a : α}
    (h : takeFirst p as = some (a,bs)) : ∃ before after, as = before ++ a :: after ∧
      bs = before ++ after ∧ p a = true ∧ ∀ b ∈ before, p b = false := by
  induction as generalizing bs with
  | nil => cases h
  | cons b as ih =>
    rw [takeFirst] at h
    split at h
    · rename_i hb
      cases h
      exact ⟨[],as,rfl,rfl,hb,fun _ h => absurd h List.not_mem_nil⟩
    · rename_i hb
      obtain ⟨⟨d,ds⟩,hd,he⟩ := Option.map_eq_some_iff.mp h
      cases he
      obtain ⟨before,after,rfl,rfl,hp,hn⟩ := ih hd
      refine ⟨b :: before,after,rfl,rfl,hp,fun x hx => ?_⟩
      rcases List.mem_cons.mp hx with rfl|hx
      · exact Bool.eq_false_iff.mpr hb
      · exact hn x hx

theorem takeFirst_none {α : Type} {p : α → Bool} {as : List α} (h : takeFirst p as = none) :
    ∀ a ∈ as, p a = false := by
  induction as with
  | nil => nofun
  | cons b as ih =>
    rw [takeFirst] at h
    split at h
    · cases h
    · rename_i hb
      intro a ha
      rcases List.mem_cons.mp ha with rfl|ha
      · exact Bool.eq_false_iff.mpr hb
      · exact ih (Option.map_eq_none_iff.mp h) a ha

theorem removeConstraint_cases (q : Query) (constraint : Constraint) :
    (Refuses (removeConstraint constraint) q ∧ ∀ c C, q.container? c = some C →
      ∀ k ∈ C.constraints, constraint.sameRelation k = false) ∨
    ∃ c C found rest, q.container? c = some C ∧
      takeFirst constraint.sameRelation C.constraints = some (found,rest) ∧
      removeConstraint constraint q =
        .ok found (q.mapContainer c fun _ => { C with constraints := rest }) := by
  rcases updateFirst_cases (fun c => (takeFirst constraint.sameRelation c.constraints).map
    fun found => (found.1,{ c with constraints := found.2 })) q with
    ⟨hq,hnone⟩|⟨c,C,found,D,hC,hD,hq⟩
  · refine .inl ⟨⟨.state (.unknownConstraint constraint.text),?_⟩,fun c C hC => ?_⟩
    · exact (bind_of_ok hq _).trans rfl
    · exact takeFirst_none (Option.map_eq_none_iff.mp (hnone c C hC))
  · obtain ⟨⟨k,rest⟩,hk,he⟩ := Option.map_eq_some_iff.mp hD
    cases he
    exact .inr ⟨c,C,k,rest,hC,hk,(bind_of_ok hq _).trans rfl⟩

theorem removeDerivedLink_cases (q : Query) (link : DerivedLink) :
    Refuses (removeDerivedLink link) q ∨
    ∃ c C found rest, q.container? c = some C ∧
      takeFirst (· = link) C.links = some (found,rest) ∧
      removeDerivedLink link q = .ok found (q.mapContainer c fun _ => { C with links := rest }) := by
  rcases updateFirst_cases (fun c => (takeFirst (fun l => decide (l = link)) c.links).map
    fun found => (found.1,{ c with links := found.2 })) q with
    ⟨hq,-⟩|⟨c,C,found,D,hC,hD,hq⟩
  · exact .inl ⟨.state (.unknownDerivedLink link.text),(bind_of_ok hq _).trans rfl⟩
  · obtain ⟨⟨k,rest⟩,hk,he⟩ := Option.map_eq_some_iff.mp hD
    cases he
    exact .inr ⟨c,C,k,rest,hC,hk,(bind_of_ok hq _).trans rfl⟩

theorem removeCachedItem_cases (q : Query) (item : String) : Refuses (removeCachedItem item) q ∨
    ∃ c C source, q.container? c = some C ∧ C.cached.find? item = some source ∧
      removeCachedItem item q =
        .ok source (q.mapContainer c fun _ => { C with cached := C.cached.erase item }) := by
  rcases updateFirst_cases (fun c => (c.cached.find? item).map fun source =>
    (source,{ c with cached := c.cached.erase item })) q with
    ⟨hq,-⟩|⟨c,C,found,D,hC,hD,hq⟩
  · exact .inl ⟨.state (.notCached item),(bind_of_ok hq _).trans rfl⟩
  · obtain ⟨source,hs,he⟩ := Option.map_eq_some_iff.mp hD
    cases he
    exact .inr ⟨c,C,found,hC,hs,(bind_of_ok hq _).trans rfl⟩

end GraphPattern.Query
