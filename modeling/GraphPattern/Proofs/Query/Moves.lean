import GraphPattern.Proofs.Query.Changes

/-!
# Moving edges and members

Replacing a vertex, absorbing a vertex and flattening a subquery hand edges or members over to
another owner before the old one goes. In between the views of the query disagree; after the last
pass they agree again.
-/

namespace GraphPattern.Query

open Step

variable {q : Query}

/-! ## The edges of a vertex -/

/-- All edges of a vertex handed over to another one, edge by edge. -/
theorem Incident.moveAll (h : q.Incident) {old new : ItemId} {x y : Item}
    {moved edges : List ItemId} (hne : old ≠ new) (ho : q.item? old = some x)
    (hx : x.edges? = some moved) (hn : q.item? new = some y) (hy : y.edges? = some edges)
    {q' : Query} (hq : ∀ j, j ≠ old → q'.item? j = (moved.foldl (moveEdge old new) q).item? j)
    (hqo : ∃ x', q'.item? old = some x' ∧ x'.edges? = some []) : q'.Incident := by
  have hnew := h.not_mem_edges_of_edges? ho hx hn hy
  have hnodup := h.nodup_edges ho hx
  refine h.move hne ho hx hn hy (fun e => mem_foldl_insertOrdered)
    (pairwise_foldl_insertOrdered (h.increasing hn hy)) hqo
    ⟨moved.foldl (fun x e => x.attach e) y,?_,?_⟩ fun j h1 h2 => ?_
  · rw [hq new (Ne.symm hne),item?_foldl_moveEdge_new hnew,hn]
    rfl
  · rw [edges?_foldl_attach,hy]
    rfl
  · rw [hq j h1,item?_foldl_moveEdge hnodup h2]
    cases hz : q.item? j with
    | none => rfl
    | some z =>
      simp only [Option.map_some]
      split
      · rfl
      · rename_i hm
        rw [Item.mapEnds_id fun ends he => EdgeEnds.redirect_of_not_touches fun ht =>
          hm ((h.joined ho hx).mpr ⟨z,hz,ends,he,ht⟩)]

/-- The loop that moves edges runs through if they and the new vertex are live. -/
theorem forM_moveEdge (old new : ItemId) {l : List ItemId} {q : Query}
    (hes : ∀ e ∈ l, (q.item? e).isSome = true) (hn : (q.item? new).isSome = true) :
    (l.forM fun e => do
      modifyItem e (Item.mapEnds fun ends => ends.redirect old new)
      modifyItem new (Item.attach e) : QueryEdit PUnit) q =
      .ok ⟨⟩ (l.foldl (moveEdge old new) q) := by
  refine (forM_apply (P:=fun p => q.Rewired p) (fun e he p hp => ?_) (.refl q)).1
  have hmoved : p.Rewired (p.mapItem e (Item.mapEnds fun ends => ends.redirect old new)) :=
    .mapItem (Item.sameButIncidence_mapEnds _) p e
  refine ⟨?_,hp.trans (rewired_moveEdge old new p e)⟩
  rw [bind_of_ok (modifyItem_ok ((hp.isSome e).trans (hes e he)))]
  exact modifyItem_ok ((hmoved.isSome new).trans ((hp.isSome new).trans hn))

theorem item?_foldl_mapItem_same {α : Type} {f : α → Item → Item} (as : List α) (i : ItemId)
    (q : Query) (j : ItemId) : (as.foldl (fun q a => q.mapItem i (f a)) q).item? j =
      if j = i then (q.item? j).map fun x => as.foldl (fun x a => f a x) x else q.item? j := by
  induction as generalizing q with
  | nil => simp
  | cons a as ih =>
    rw [List.foldl_cons,ih,item?_mapItem]
    by_cases hj : j = i
    · simp [hj,Function.comp_def]
    · simp [hj]

theorem edges?_foldl_detach (es : List ItemId) (x : Item) :
    (es.foldl (fun x e => x.detach e) x).edges? =
      x.edges?.map fun edges => edges.filter (· ∉ es) := by
  induction es generalizing x with
  | nil => cases h : x.edges? <;> simp [h]
  | cons e es ih =>
    rw [List.foldl_cons,ih,Item.edges?_detach]
    cases x.edges? with
    | none => rfl
    | some edges =>
      simp only [Option.map_some,List.filter_filter,List.mem_cons,not_or,Option.some.injEq]
      congr 1
      funext f
      simp [Bool.and_comm]

theorem edges?_foldl_detach_self {x : Item} {edges : List ItemId} (h : x.edges? = some edges) :
    (edges.foldl (fun x e => x.detach e) x).edges? = some [] := by
  rw [edges?_foldl_detach,h,Option.map_some,List.filter_eq_nil_iff.mpr]
  intro e he
  simp [he]

/-! ## Replacing a vertex -/

/-- The query with a vertex in the place of another one, whose edges it gets. -/
def withReplaced (q : Query) (c : ContainerId) (i : ItemId) (edges : List ItemId)
    (new : Item) : Query :=
  edges.foldl (moveEdge i q.nextItem)
    (((q.dropItem i).pushItem { new with container := some c }).mapContainer c fun C =>
      { C with vertices := replaceFirst i q.nextItem C.vertices })

theorem replaceVertex_ok (h : q.WellFormed) {i : ItemId} {x new : Item} {edges : List ItemId}
    {c : ContainerId} (hv : new.isVertex = true) (hd : new.container = none)
    (hx : q.item? i = some x) (he : x.edges? = some edges) (hc : x.container = some c)
    (hf : q.Free new.names (some i)) :
    replaceVertex i new q = .ok q.nextItem (q.withReplaced c i edges new) := by
  obtain ⟨d,C,hd',hC⟩ := h.owner hx
  rw [hc] at hd'
  cases hd'
  have hl : (((q.dropItem i).pushItem { new with container := some c }).container? c).isSome =
      true := by
    rw [container?_pushItem,container?_dropItem,hC]
    rfl
  let p := ((q.dropItem i).pushItem { new with container := some c }).mapContainer c fun C =>
    { C with vertices := replaceFirst i q.nextItem C.vertices }
  have hloop := forM_moveEdge i q.nextItem (l:=edges) (q:=p) (fun e hm => ?_) ?_
  · simp only [replaceVertex,hv,Bool.not_true,Bool.false_eq_true,if_false,bind_apply,pure_apply,
      checkDetached_of_none hd,lift_ok,get_apply,vertexEdges_of_some hx he,item_of_some hx,hc,
      checkNames_eq_ok.mpr hf,takeItem_ok hx,register_apply,modifyContainer_ok hl,
      nextItem_dropItem]
    exact (bind_of_ok hloop _).trans rfl
  · obtain ⟨y,hy,ht⟩ := (h.incident.joined hx he).mp hm
    have hei := Incident.ne_of_touches hy ht hx he
    rw [item?_mapContainer,item?_pushItem,item?_dropItem,if_neg hei,hy]
    split <;> rfl
  · rw [item?_mapContainer,item?_pushItem,nextItem_dropItem,if_pos rfl]
    rfl

theorem replaceVertex_cases (h : q.WellFormed) (i : ItemId) (new : Item) :
    Refuses (replaceVertex i new) q ∨ ∃ x edges c, new.isVertex = true ∧ new.container = none ∧
      q.item? i = some x ∧ x.edges? = some edges ∧ x.container = some c ∧
      q.Free new.names (some i) := by
  cases hv : new.isVertex with
  | false => left; simp [Refuses,replaceVertex,hv,bind_apply]
  | true =>
    cases hd : new.container with
    | some => left; simp [Refuses,replaceVertex,hv,checkDetached,hd,bind_apply]
    | none =>
      rcases vertexEdges_cases q i with ⟨err,he⟩|⟨x,edges,hx,hxe,he⟩
      · left; simp [Refuses,replaceVertex,hv,checkDetached,hd,bind_apply,he]
      · obtain ⟨c,C,hc,-⟩ := h.owner hx
        cases hn : q.checkNames new.names (some i) with
        | error =>
          left
          simp [Refuses,replaceVertex,hv,checkDetached,hd,bind_apply,he,item_of_some hx,hc,hn]
        | ok => exact .inr ⟨x,edges,c,rfl,rfl,hx,hxe,hc,checkNames_eq_ok.mp hn⟩

/-- The new vertex comes first, then the edges move, and the old vertex goes last. -/
theorem Incident.withReplaced (h : q.Incident) {i : ItemId} {x new : Item} {edges : List ItemId}
    (c : ContainerId) (hv : new.edges? = some []) (hx : q.item? i = some x)
    (he : x.edges? = some edges) : (q.withReplaced c i edges new).Incident := by
  have hfresh := (ne_nextItem hx).symm
  have hnodup := h.nodup_edges hx he
  have hpush := h.pushVertex (x:={ new with container := some c }) hv
  have ho : (q.pushItem { new with container := some c }).item? i = some x := by
    rw [item?_pushItem,if_neg (Ne.symm hfresh),hx]
  have hn : (q.pushItem { new with container := some c }).item? q.nextItem =
      some { new with container := some c } := by
    rw [item?_pushItem,if_pos rfl]
  have hie := h.not_mem_edges_of_edges? hx he hx he
  have hold : (edges.foldl (fun p e => p.mapItem i (Item.detach e))
      (edges.foldl (moveEdge i q.nextItem) (q.pushItem { new with container := some c }))).item?
        i = some (edges.foldl (fun x e => x.detach e) x) := by
    rw [item?_foldl_mapItem_same,if_pos rfl,item?_foldl_moveEdge hnodup (Ne.symm hfresh),ho,
      Option.map_some,if_neg hie]
    rfl
  have hempty := edges?_foldl_detach_self he
  have hmoved : (edges.foldl (fun p e => p.mapItem i (Item.detach e)) (edges.foldl
      (moveEdge i q.nextItem) (q.pushItem { new with container := some c }))).Incident :=
    hpush.moveAll (Ne.symm hfresh) ho he hn hv
      (fun j hj => by rw [item?_foldl_mapItem_same,if_neg hj]) ⟨_,hold,hempty⟩
  refine (hmoved.dropVertex hold hempty).of_same fun j => ?_
  rw [item?_dropItem,item?_foldl_mapItem_same,Query.withReplaced]
  by_cases hj : j = q.nextItem
  · have hnm := h.nextItem_not_mem_edges hx he
    rw [hj,if_neg hfresh,if_neg hfresh,item?_foldl_moveEdge_new hnm,
      item?_foldl_moveEdge_new hnm,item?_mapContainer,item?_pushItem,item?_pushItem,
      nextItem_dropItem,if_pos rfl,if_pos rfl]
  · rw [item?_foldl_moveEdge hnodup hj,item?_foldl_moveEdge hnodup hj,item?_mapContainer,
      item?_pushItem,item?_pushItem,nextItem_dropItem,if_neg hj,if_neg hj,item?_dropItem]
    by_cases hji : j = i
    · rw [if_pos hji,if_pos hji]
      rfl
    · rw [if_neg hji,if_neg hji,if_neg hji]

theorem WellFormed.withReplaced (h : q.WellFormed) {i : ItemId} {x new : Item}
    {edges : List ItemId} {c : ContainerId} (hv : new.edges? = some []) (hw : new.WellNamed)
    (hx : q.item? i = some x) (he : x.edges? = some edges) (hc : x.container = some c)
    (hf : q.Free new.names (some i)) : (q.withReplaced c i edges new).WellFormed := by
  obtain ⟨d,C,hd',hC⟩ := h.owner hx
  rw [hc] at hd'
  cases hd'
  have hxv : x.isVertex = true := Item.isVertex_iff.mpr ⟨edges,he⟩
  have hnv : new.isVertex = true := Item.isVertex_iff.mpr ⟨[],hv⟩
  have hrew := Rewired.foldl (rewired_moveEdge i q.nextItem) edges
    (((q.dropItem i).pushItem { new with container := some c }).mapContainer c fun C =>
      { C with vertices := replaceFirst i q.nextItem C.vertices })
  constructor
  · refine hrew.owned (h.owned.replace hx hxv hc hC hnv rfl fun b => ?_)
    cases b <;> rfl
  · refine hrew.nested (h.nested.of_same fun d => ?_)
    rw [container?_mapContainer,container?_pushItem,container?_dropItem]
    split
    · cases q.container? d with
      | none => rfl
      | some C => rfl
    · rfl
  · have hdrop : (q.dropItem i).Named := h.named.of_sub fun j y hy => by
      rw [item?_dropItem] at hy
      split at hy
      · cases hy
      · exact ⟨y,hy,rfl,rfl⟩
    refine hrew.named (hdrop.of_put (j:=q.nextItem) hw (fun k z hz _ n hn => ?_) fun k z hz => ?_)
    · rw [item?_dropItem] at hz
      split at hz
      · cases hz
      · rename_i hk
        exact hf k z hz (fun he => hk (Option.some.inj he)) n hn
    · rw [item?_mapContainer,item?_pushItem,nextItem_dropItem] at hz
      split at hz
      · rename_i hk
        cases hz
        rw [if_pos hk]
        exact ⟨rfl,rfl⟩
      · rename_i hk
        rw [if_neg hk]
        exact ⟨z,hz,rfl,rfl⟩
  · exact h.incident.withReplaced c hv hx he

/-- What a replacement leaves: the new vertex stands in the place of the old one, and every edge of
the old vertex ends at the new one. -/
theorem item?_withReplaced (h : q.WellFormed) {i : ItemId} {x : Item} {edges : List ItemId}
    (c : ContainerId) (new : Item) (hx : q.item? i = some x) (he : x.edges? = some edges) :
    (q.withReplaced c i edges new).item? i = none ∧
    (q.withReplaced c i edges new).item? q.nextItem =
      some (edges.foldl (fun x e => x.attach e) { new with container := some c }) ∧
    ∀ j, j ≠ i → j ≠ q.nextItem → (q.withReplaced c i edges new).item? j =
      (q.item? j).map fun x => x.mapEnds fun ends => ends.redirect i q.nextItem := by
  have hne := ne_nextItem hx
  have hnodup := h.incident.nodup_edges hx he
  have hnm := h.incident.nextItem_not_mem_edges hx he
  refine ⟨?_,?_,fun j h1 h2 => ?_⟩
  · rw [withReplaced,item?_foldl_moveEdge hnodup hne,item?_mapContainer,item?_pushItem,
      nextItem_dropItem,if_neg hne,item?_dropItem,if_pos rfl]
    rfl
  · rw [withReplaced,item?_foldl_moveEdge_new hnm,item?_mapContainer,item?_pushItem,
      nextItem_dropItem,if_pos rfl]
    rfl
  · rw [withReplaced,item?_foldl_moveEdge hnodup h2,item?_mapContainer,item?_pushItem,
      nextItem_dropItem,if_neg h2,item?_dropItem,if_neg h1]
    cases hj : q.item? j with
    | none => rfl
    | some y =>
      simp only [Option.map_some]
      split
      · rfl
      · rename_i hm
        rw [Item.mapEnds_id fun f hf => EdgeEnds.redirect_of_not_touches fun hto => hm
          ((h.incident.joined hx he).mpr ⟨y,hj,f,hf,hto⟩)]

theorem container?_withReplaced (i : ItemId) (edges : List ItemId) (c : ContainerId)
    (new : Item) (a : ContainerId) : (q.withReplaced c i edges new).container? a =
      if a = c then (q.container? a).map fun C =>
        { C with vertices := replaceFirst i q.nextItem C.vertices } else q.container? a := by
  rw [withReplaced,(Rewired.foldl (rewired_moveEdge i q.nextItem) _ _).container?,
    container?_mapContainer,container?_pushItem,container?_dropItem]

theorem sameButIncidence_foldl_attach (es : List ItemId) (x : Item) :
    (es.foldl (fun x e => x.attach e) x).SameButIncidence x := by
  induction es generalizing x with
  | nil => exact .refl x
  | cons e es ih => exact (ih (x.attach e)).trans (Item.sameButIncidence_attach e x)

/-! ## Absorbing a vertex -/

/-- The query whose vertex at one end of an edge has been absorbed by the one at the other end,
before the emptied vertex goes. -/
def withEmptied (q : Query) (c : ContainerId) (e : ItemId) (ends : EdgeEnds) (old new : ItemId)
    (moved : List ItemId) : Query :=
  moved.foldl (fun p f => p.mapItem old (Item.detach f))
    (moved.foldl (moveEdge old new) (q.withoutEdge c e ends))

/-- The query whose vertex at one end of an edge has been absorbed by the one at the other end. -/
def withAbsorbed (q : Query) (c d : ContainerId) (e : ItemId) (ends : EdgeEnds)
    (old new : ItemId) (moved : List ItemId) : Query :=
  (q.withEmptied c e ends old new moved).withoutVertex d old

/-- What an absorption needs: an edge between different vertices, the absorbed one among them. -/
structure Absorbable (q : Query) (e old new : ItemId) (x u w : Item) (ends : EdgeEnds)
    (edges : List ItemId) (c d : ContainerId) : Prop where
  /-- The edge is live. -/
  edge : q.item? e = some x
  /-- It has these ends. -/
  ended : x.ends? = some ends
  /-- It belongs to this container. -/
  container : x.container = some c
  /-- The kept vertex is opposite to the absorbed one. -/
  opposite : ends.opposite? old = some new
  /-- The two are different. -/
  ne : new ≠ old
  /-- The absorbed vertex is live. -/
  absorbed : q.item? old = some u
  /-- It lists these edges. -/
  listed : u.edges? = some edges
  /-- It belongs to this container. -/
  owner : u.container = some d
  /-- The kept vertex is live. -/
  kept : q.item? new = some w
  /-- It is a vertex. -/
  isVertex : w.isVertex = true

namespace Absorbable

variable {e old new : ItemId} {x u w : Item} {ends : EdgeEnds} {edges : List ItemId}
  {c d : ContainerId}

theorem touches (ha : q.Absorbable e old new x u w ends edges c d) :
    ends.Touches old ∧ ends.Touches new := by
  rcases EdgeEnds.opposite?_eq_some ha.opposite with ⟨h1,h2⟩|⟨h1,h2⟩
  · exact ⟨.inl h1,.inr h2⟩
  · exact ⟨.inr h2,.inl h1⟩

/-- Once the edge is gone, the two vertices list their other edges. -/
theorem withoutEdge (ha : q.Absorbable e old new x u w ends edges c d) :
    (q.withoutEdge c e ends).item? old = some (u.detach e) ∧
      (u.detach e).edges? = some (edges.filter (· ≠ e)) ∧
      (q.withoutEdge c e ends).item? new = some (w.detach e) := by
  have hne : ∀ {v : ItemId} {y : Item}, q.item? v = some y → y.isVertex = true → v ≠ e :=
    ne_of_ends ha.edge ha.ended
  have hu : u.isVertex = true := Item.isVertex_iff.mpr ⟨edges,ha.listed⟩
  refine ⟨?_,?_,?_⟩
  · rw [item?_withoutEdge,if_neg (hne ha.absorbed hu),ha.absorbed,Option.map_some,
      if_pos ha.touches.1]
  · rw [Item.edges?_detach,ha.listed]
    rfl
  · rw [item?_withoutEdge,if_neg (hne ha.kept ha.isVertex),ha.kept,Option.map_some,
      if_pos ha.touches.2]

/-- The absorbed vertex is left without edges, and all views agree once they have moved. -/
theorem withEmptied (ha : q.Absorbable e old new x u w ends edges c d) (h : q.WellFormed) :
    (q.withEmptied c e ends old new (edges.filter (· ≠ e))).WellFormed ∧
    ∃ z, (q.withEmptied c e ends old new (edges.filter (· ≠ e))).item? old = some z ∧
      z.edges? = some [] ∧ z.SameButIncidence u := by
  obtain ⟨hold,hedges,hnew⟩ := ha.withoutEdge
  have hq := h.withoutEdge ha.edge ha.ended ha.container
  have hw : (w.detach e).isVertex = true :=
    (Item.sameButIncidence_detach e w).isVertex.trans ha.isVertex
  obtain ⟨kept,hkept⟩ := Item.isVertex_iff.mp hw
  have hnodup := hq.incident.nodup_edges hold hedges
  have hnot := hq.incident.not_mem_edges_of_edges? hold hedges hold hedges
  have hz : (q.withEmptied c e ends old new (edges.filter (· ≠ e))).item? old =
      some ((edges.filter (· ≠ e)).foldl (fun x f => x.detach f) (u.detach e)) := by
    rw [Query.withEmptied,item?_foldl_mapItem_same,if_pos rfl,
      item?_foldl_moveEdge hnodup (Ne.symm ha.ne),hold,Option.map_some,if_neg hnot]
    rfl
  have hempty := edges?_foldl_detach_self hedges
  have hsame : ∀ (fs : List ItemId) (y : Item), y.SameButIncidence u →
      (fs.foldl (fun x f => x.detach f) y).SameButIncidence u := by
    intro fs
    induction fs with
    | nil => exact fun y hy => hy
    | cons f fs ih => exact fun y hy => ih _ ((Item.sameButIncidence_detach f y).trans hy)
  have hrew : (q.withoutEdge c e ends).Rewired
      (q.withEmptied c e ends old new (edges.filter (· ≠ e))) :=
    (Rewired.foldl (rewired_moveEdge old new) _ _).trans
      (Rewired.foldl (fun p f => .mapItem (Item.sameButIncidence_detach f) p old) _ _)
  refine ⟨hrew.wellFormed hq ?_,_,hz,hempty,hsame _ _ (Item.sameButIncidence_detach e u)⟩
  exact hq.incident.moveAll (Ne.symm ha.ne) hold hedges hnew hkept
    (fun j hj => by rw [Query.withEmptied,item?_foldl_mapItem_same,if_neg hj]) ⟨_,hz,hempty⟩

end Absorbable

theorem absorb_ok (h : q.WellFormed) {e old new : ItemId} {x u w : Item} {ends : EdgeEnds}
    {edges : List ItemId} {c d : ContainerId}
    (ha : q.Absorbable e old new x u w ends edges c d) :
    absorb e old q = .ok () (q.withAbsorbed c d e ends old new (edges.filter (· ≠ e))) := by
  obtain ⟨hold,hedges,hnew⟩ := ha.withoutEdge
  have hq := h.withoutEdge ha.edge ha.ended ha.container
  obtain ⟨hwf,z,hz,hempty,hsame⟩ := ha.withEmptied h
  have hmove := forM_moveEdge old new (l:=edges.filter (· ≠ e))
    (q:=q.withoutEdge c e ends) (fun f hf => by
      obtain ⟨y,hy,-⟩ := (hq.incident.joined hold hedges).mp hf
      rw [hy]
      rfl) (by rw [hnew]; rfl)
  have hrew := Rewired.foldl (rewired_moveEdge old new) (edges.filter (· ≠ e))
    (q.withoutEdge c e ends)
  have hdetach : ((edges.filter (· ≠ e)).forM fun f => modifyItem old (Item.detach f))
      ((edges.filter (· ≠ e)).foldl (moveEdge old new) (q.withoutEdge c e ends)) =
      .ok ⟨⟩ (q.withEmptied c e ends old new (edges.filter (· ≠ e))) := by
    refine (forM_apply (P:=fun p : Query => (p.item? old).isSome = true)
      (fun f _ p hp => ⟨modifyItem_ok hp,?_⟩) ?_).1
    · rw [item?_mapItem,if_pos rfl,Option.isSome_map]
      exact hp
    · rw [hrew.isSome,hold]
      rfl
  have hlast := removeVertex_ok hwf hz hempty (hsame.container.trans ha.owner)
  rw [absorb,bind_of_ok (get_apply q),edgeEnds_of_some ha.edge ha.ended,bind_of_ok (lift_ok _ q),
    bind_of_ok (get_apply q),item_of_some ha.edge,bind_of_ok (lift_ok _ q)]
  simp only [ha.opposite,if_neg ha.ne]
  rw [bind_of_ok (removeEdge_ok h ha.edge ha.ended ha.container),
    bind_of_ok (get_apply _),vertexEdges_of_some hold hedges,bind_of_ok (lift_ok _ _),
    bind_of_ok hmove,bind_of_ok hdetach,bind_of_ok hlast]
  rfl

/-- An edge with different vertices at its ends lets one of them absorb the other. -/
theorem WellFormed.exists_absorbable (h : q.WellFormed) {e old new : ItemId} {x : Item}
    {ends : EdgeEnds} (hx : q.item? e = some x) (hxe : x.ends? = some ends)
    (ho : ends.opposite? old = some new) (hne : new ≠ old) :
    ∃ u w edges c d, q.Absorbable e old new x u w ends edges c d := by
  have ht : ends.Touches old ∧ ends.Touches new := by
    rcases EdgeEnds.opposite?_eq_some ho with ⟨h1,h2⟩|⟨h1,h2⟩
    · exact ⟨.inl h1,.inr h2⟩
    · exact ⟨.inr h2,.inl h1⟩
  obtain ⟨c,C,hc,-⟩ := h.owner hx
  obtain ⟨u,hu,huv⟩ := h.incident.ended hx ⟨ends,hxe,ht.1⟩
  obtain ⟨w,hw,hwv⟩ := h.incident.ended hx ⟨ends,hxe,ht.2⟩
  obtain ⟨edges,hedges⟩ := Item.isVertex_iff.mp huv
  obtain ⟨d,D,hd,-⟩ := h.owner hu
  exact ⟨u,w,edges,c,d,hx,hxe,hc,ho,hne,hu,hedges,hd,hw,hwv⟩

theorem absorb_cases (h : q.WellFormed) (e old : ItemId) : Refuses (absorb e old) q ∨
    ∃ new x u w ends edges c d, q.Absorbable e old new x u w ends edges c d := by
  rcases edgeEnds_cases q e with ⟨err,he⟩|⟨x,ends,hx,hxe,he⟩
  · left; simp [Refuses,absorb,bind_apply,he]
  · cases ho : ends.opposite? old with
    | none => left; simp [Refuses,absorb,bind_apply,he,item_of_some hx,ho]
    | some new =>
      by_cases hne : new = old
      · left; simp [Refuses,absorb,bind_apply,he,item_of_some hx,ho,hne]
      · obtain ⟨u,w,edges,c,d,ha⟩ := h.exists_absorbable hx hxe ho hne
        exact .inr ⟨new,x,u,w,ends,edges,c,d,ha⟩

theorem WellFormed.withAbsorbed (h : q.WellFormed) {e old new : ItemId} {x u w : Item}
    {ends : EdgeEnds} {edges : List ItemId} {c d : ContainerId}
    (ha : q.Absorbable e old new x u w ends edges c d) :
    (q.withAbsorbed c d e ends old new (edges.filter (· ≠ e))).WellFormed := by
  obtain ⟨hwf,z,hz,hempty,hsame⟩ := ha.withEmptied h
  exact hwf.withoutVertex hz hempty (hsame.container.trans ha.owner)

/-- What an absorption leaves: the edge and the absorbed vertex are gone, the kept vertex has all
that it had, and every other edge of the absorbed vertex ends at the kept one. -/
structure Absorbed (q q' : Query) (e old new : ItemId) (w : Item) : Prop where
  /-- The edge is gone. -/
  edgeGone : q'.item? e = none
  /-- The absorbed vertex is gone. -/
  vertexGone : q'.item? old = none
  /-- The kept vertex differs in its edges alone. -/
  kept : ∃ z, q'.item? new = some z ∧ z.SameButIncidence w
  /-- Other items are as before, with their ends moved. -/
  other : ∀ j, j ≠ e → j ≠ old → j ≠ new → q'.item? j =
    (q.item? j).map fun x => x.mapEnds fun ends => ends.redirect old new
  /-- The containers list neither the edge nor the absorbed vertex any more. -/
  container : ∀ a, q'.container? a = (q.container? a).map fun C =>
    { C with vertices := C.vertices.filter (· ≠ old), edges := C.edges.filter (· ≠ e) }

/-- A container that does not own an item does not list it. -/
theorem WellFormed.filter_members (h : q.WellFormed) {a c : ContainerId} {C : Container}
    {i : ItemId} {x : Item} {b : Bool} (hx : q.item? i = some x) (hc : x.container = some c)
    (ha : q.container? a = some C) (hac : a ≠ c) :
    (C.members b).filter (· ≠ i) = C.members b := by
  refine List.filter_eq_self.mpr fun j hj => decide_eq_true fun hji => hac ?_
  obtain ⟨y,hy,-,ho⟩ := h.owned.member ha (hji ▸ hj)
  rw [hx] at hy
  cases hy
  rw [hc] at ho
  exact (Option.some.inj ho).symm

theorem container?_withoutEdge (h : q.WellFormed) {e : ItemId} {x : Item} {ends : EdgeEnds}
    {c : ContainerId} (hx : q.item? e = some x) (hc : x.container = some c) (a : ContainerId) :
    (q.withoutEdge c e ends).container? a =
      (q.container? a).map fun C => { C with edges := C.edges.filter (· ≠ e) } := by
  rw [withoutEdge,container?_dropItem,
    (rewired_mapEndVertices ends (Item.sameButIncidence_detach e) _).container?,
    container?_mapContainer]
  split
  · rfl
  · rename_i hac
    cases ha : q.container? a with
    | none => rfl
    | some C =>
      have hf := h.filter_members (b:=false) hx hc ha hac
      simp only [Container.members,Bool.false_eq_true,if_false] at hf
      simp only [Option.map_some,hf]

theorem container?_withoutVertex (h : q.WellFormed) {v : ItemId} {x : Item} {c : ContainerId}
    (hx : q.item? v = some x) (hc : x.container = some c) (a : ContainerId) :
    (q.withoutVertex c v).container? a =
      (q.container? a).map fun C => { C with vertices := C.vertices.filter (· ≠ v) } := by
  rw [withoutVertex,container?_dropItem,container?_mapContainer]
  split
  · rfl
  · rename_i hac
    cases ha : q.container? a with
    | none => rfl
    | some C =>
      have hf := h.filter_members (b:=true) hx hc ha hac
      simp only [Container.members,if_true] at hf
      simp only [Option.map_some,hf]

theorem Absorbable.leaves (h : q.WellFormed) {e old new : ItemId} {x u w : Item}
    {ends : EdgeEnds} {edges : List ItemId} {c d : ContainerId}
    (ha : q.Absorbable e old new x u w ends edges c d) :
    q.Absorbed (q.withAbsorbed c d e ends old new (edges.filter (· ≠ e))) e old new w := by
  obtain ⟨hold,hedges,hnew⟩ := ha.withoutEdge
  obtain ⟨hwf,z,hz,hempty,hsame⟩ := ha.withEmptied h
  have hq := h.withoutEdge ha.edge ha.ended ha.container
  have hnodup := hq.incident.nodup_edges hold hedges
  have hitem : ∀ j, j ≠ old →
      (q.withAbsorbed c d e ends old new (edges.filter (· ≠ e))).item? j =
        ((edges.filter (· ≠ e)).foldl (moveEdge old new) (q.withoutEdge c e ends)).item? j := by
    intro j hj
    rw [Query.withAbsorbed,Query.withoutVertex,item?_dropItem,if_neg hj,item?_mapContainer,
      Query.withEmptied,item?_foldl_mapItem_same,if_neg hj]
  -- The edge touches the two vertices and no other item.
  have htouch : ∀ j, ends.Touches j → j = old ∨ j = new := by
    intro j hj
    rcases EdgeEnds.opposite?_eq_some ha.opposite with ⟨h1,h2⟩|⟨h1,h2⟩ <;>
      rcases hj with hj|hj
    · exact .inl (Option.some.inj (hj.symm.trans h1))
    · exact .inr (Option.some.inj (hj.symm.trans h2))
    · exact .inr (Option.some.inj (hj.symm.trans h1))
    · exact .inl (Option.some.inj (hj.symm.trans h2))
  have hne : e ≠ old ∧ e ≠ new := by
    refine ⟨fun he => ?_,fun he => ?_⟩
    · exact ne_of_ends ha.edge ha.ended ha.absorbed (Item.isVertex_iff.mpr ⟨edges,ha.listed⟩)
        he.symm
    · exact ne_of_ends ha.edge ha.ended ha.kept ha.isVertex he.symm
  constructor
  · rw [hitem e hne.1,item?_foldl_moveEdge hnodup hne.2,item?_withoutEdge,if_pos rfl]
    rfl
  · rw [Query.withAbsorbed,Query.withoutVertex,item?_dropItem,if_pos rfl]
  · obtain ⟨fs,hfs⟩ := Item.isVertex_iff.mp
      ((Item.sameButIncidence_detach e w).isVertex.trans ha.isVertex)
    have hnm := hq.incident.not_mem_edges_of_edges? hold hedges hnew hfs
    refine ⟨_,?_,(sameButIncidence_foldl_attach (edges.filter (· ≠ e)) _).trans
      (Item.sameButIncidence_detach e w)⟩
    rw [hitem new ha.ne,item?_foldl_moveEdge_new hnm,hnew]
    rfl
  · intro j h1 h2 h3
    rw [hitem j h2,item?_foldl_moveEdge hnodup h3,item?_withoutEdge,if_neg h1]
    have ht : ¬ends.Touches j := fun ht => (htouch j ht).elim h2 h3
    cases hj : q.item? j with
    | none => rfl
    | some y =>
      simp only [Option.map_some,if_neg ht]
      split
      · rfl
      · rename_i hm
        rw [Item.mapEnds_id fun f hf => EdgeEnds.redirect_of_not_touches fun hto => hm ?_]
        exact List.mem_filter.mpr ⟨(h.incident.joined ha.absorbed ha.listed).mpr ⟨y,hj,f,hf,hto⟩,
          decide_eq_true h1⟩
  · intro a
    rw [Query.withAbsorbed,container?_withoutVertex hwf hz (hsame.container.trans ha.owner),
      Query.withEmptied,container?_foldl_mapItem,
      (Rewired.foldl (rewired_moveEdge old new) _ _).container?,
      container?_withoutEdge h ha.edge ha.container,Option.map_map]
    rfl

/-! An absorbed vertex without an edge beside the one between the two hands no edge over. -/

theorem filter_ne_alone (e : ItemId) : [e].filter (· ≠ e) = [] := by simp

theorem Absorbable.leaves_alone (h : q.WellFormed) {e old new : ItemId} {x u w : Item}
    {ends : EdgeEnds} {c d : ContainerId} (ha : q.Absorbable e old new x u w ends [e] c d) :
    q.Absorbed (q.withAbsorbed c d e ends old new []) e old new w :=
  filter_ne_alone e ▸ ha.leaves h

theorem Absorbed.free {q q' : Query} {e old new : ItemId} {y u w : Item}
    (ha : q.Absorbed q' e old new w) (h : q.Named) (hy : q.item? e = some y)
    (hu : q.item? old = some u) : q'.Free (u.names ++ y.names) (some new) := by
  intro i x' hx' hi n hn hm
  have h1 : i ≠ e := fun he => by
    rw [he,ha.edgeGone] at hx'
    cases hx'
  have h2 : i ≠ old := fun he => by
    rw [he,ha.vertexGone] at hx'
    cases hx'
  rw [ha.other i h1 h2 fun he => hi (congrArg some he)] at hx'
  obtain ⟨x,hx,rfl⟩ := Option.map_eq_some_iff.mp hx'
  rw [(Item.sameButIncidence_mapEnds _ x).names] at hm
  rcases List.mem_append.mp hn with hn|hn
  · exact h2 (h.disjoint hx hu hm hn)
  · exact h1 (h.disjoint hx hy hm hn)

/-! ## Flattening a subquery -/

/-- A container with the members of another one beside its own. -/
def taking (inner c : Container) : Container :=
  { c with
    vertices := c.vertices ++ inner.vertices
    edges := c.edges ++ inner.edges
    subqueries := c.subqueries ++ inner.subqueries
    constraints := c.constraints ++ inner.constraints
    links := c.links ++ inner.links
    cached := inner.cached.entries.foldl (fun m e => m.insertNew e.1 e.2) c.cached }

/-- The query whose subquery has handed everything over to the container around it. -/
def withLifted (q : Query) (p s : ContainerId) (inner : Container) : Query :=
  (inner.subqueries.foldl (fun q n => q.mapContainer n (Container.reparent p))
    ((inner.vertices ++ inner.edges).foldl
      (fun q i => q.mapItem i fun item => { item with container := some p })
      (q.mapContainer s fun _ => Container.bare inner.kind))).mapContainer p (taking inner)

theorem reparent_reparent (p : ContainerId) (C : Container) :
    (C.reparent p).reparent p = C.reparent p := by
  cases C with
  | mk kind => cases kind <;> rfl

theorem parent?_reparent {p s : ContainerId} {C : Container} (h : C.parent? = some s) :
    (C.reparent p).parent? = some p := by
  cases C with
  | mk kind =>
    cases kind with
    | query => cases h
    | subquery parent bounds => rfl

theorem members_reparent (p : ContainerId) (C : Container) :
    (C.reparent p).members = C.members ∧ (C.reparent p).subqueries = C.subqueries := by
  cases C with
  | mk kind => cases kind <;> exact ⟨rfl,rfl⟩

/-- An item is owned by a container exactly if the container lists it. -/
theorem WellFormed.container_iff (h : q.WellFormed) {s : ContainerId} {S : Container}
    (hs : q.container? s = some S) {i : ItemId} {x : Item} (hx : q.item? i = some x) :
    x.container = some s ↔ i ∈ S.vertices ++ S.edges := by
  rw [List.mem_append]
  constructor
  · intro ho
    obtain ⟨c,C,hc,hC,hm⟩ := h.owned.owner hx
    rw [ho] at hc
    cases hc
    rw [hs] at hC
    cases hC
    cases hv : x.isVertex with
    | true => rw [hv] at hm; exact .inl hm
    | false => rw [hv] at hm; exact .inr hm
  · intro hm
    have hlisted : ∃ b, i ∈ S.members b := hm.elim (fun h => ⟨true,h⟩) fun h => ⟨false,h⟩
    obtain ⟨b,hb⟩ := hlisted
    obtain ⟨y,hy,-,ho⟩ := h.owned.member hs hb
    rw [hx] at hy
    cases hy
    exact ho

section Lifted

variable {s p : ContainerId} {S P : Container}

theorem item?_withLifted (h : q.WellFormed) (hs : q.container? s = some S) (j : ItemId) :
    (q.withLifted p s S).item? j = (q.item? j).map fun x =>
      if x.container = some s then { x with container := some p } else x := by
  rw [withLifted,item?_mapContainer,item?_foldl_mapContainer,
    item?_foldl_mapItem (f:=fun x => { x with container := some p }) (fun x => rfl),
    item?_mapContainer]
  cases hx : q.item? j with
  | none => rfl
  | some x => simp only [Option.map_some,h.container_iff hs hx]

/-- What lay in a flattened subquery lies in the container around it. -/
theorem item?_flattened (h : q.WellFormed) (hs : q.container? s = some S) (j : ItemId) :
    ((q.withLifted p s S).withoutSubquery p s).item? j = (q.item? j).map fun x =>
      if x.container = some s then { x with container := some p } else x :=
  item?_withLifted h hs j

theorem item?_flattened_inside (h : q.WellFormed) (hs : q.container? s = some S) {v : ItemId}
    {x : Item} (hx : q.item? v = some x) (ho : x.container = some s) :
    ((q.withLifted p s S).withoutSubquery p s).item? v =
      some { x with container := some p } := by
  rw [item?_flattened h hs,hx,Option.map_some,if_pos ho]

/-- A subquery lies strictly below the container around it and above its own subqueries. -/
theorem Nested.around (h : q.Nested) (hs : q.container? s = some S) (hsp : S.parent? = some p) :
    p ≠ s ∧ s ∉ S.subqueries ∧ p ∉ S.subqueries := by
  have hlt := h.parent_lt hs hsp
  refine ⟨fun he => ?_,fun hss => ?_,fun hps => ?_⟩
  · exact Nat.lt_irrefl _ (he ▸ hlt)
  · exact Nat.lt_irrefl _ (h.below hs hss)
  · exact Nat.lt_asymm hlt (h.below hs hps)

theorem container?_withLifted (d : ContainerId) (hne : p ≠ s) (hss : s ∉ S.subqueries)
    (hps : p ∉ S.subqueries) : (q.withLifted p s S).container? d =
      (q.container? d).map fun C =>
        if d = s then Container.bare S.kind
        else if d = p then taking S C
        else if d ∈ S.subqueries then C.reparent p
        else C := by
  rw [withLifted,container?_mapContainer,container?_foldl_mapContainer (reparent_reparent p),
    container?_foldl_mapItem,container?_mapContainer]
  cases q.container? d with
  | none => simp
  | some C =>
    by_cases hds : d = s
    · have hdp : d ≠ p := fun he => hne (he.symm.trans hds)
      subst hds
      simp [hdp,hss]
    · by_cases hdp : d = p
      · subst hdp
        simp [hds,hps]
      · simp [hds,hdp]

/-- What flattening leaves of the containers. -/
theorem container?_flattened (a : ContainerId) (hne : p ≠ s) (hss : s ∉ S.subqueries)
    (hps : p ∉ S.subqueries) : ((q.withLifted p s S).withoutSubquery p s).container? a =
      if a = s then none else (q.container? a).map fun C =>
        if a = p then { taking S C with
          subqueries := (C.subqueries ++ S.subqueries).filter (· ≠ s) }
        else if a ∈ S.subqueries then C.reparent p
        else C := by
  rw [withoutSubquery,container?_dropContainer,container?_mapContainer,
    container?_withLifted a hne hss hps]
  by_cases has : a = s
  · rw [if_pos has,if_pos has]
  · rw [if_neg has,if_neg has]
    cases q.container? a with
    | none => split <;> rfl
    | some C =>
      by_cases hap : a = p
      · simp only [if_pos hap,Option.map_some,if_neg has]
        rfl
      · simp only [if_neg hap,Option.map_some,if_neg has]

theorem WellFormed.withLifted (h : q.WellFormed) (hs : q.container? s = some S)
    (hsp : S.parent? = some p) : (q.withLifted p s S).WellFormed := by
  obtain ⟨hne,hss,hps⟩ := h.nested.around hs hsp
  obtain ⟨P,hP,-⟩ := h.nested.listed hs hsp
  have hlook := fun d => container?_withLifted (q:=q) d hne hss hps
  have hbody : ∀ {x : Item}, (if x.container = some s then { x with container := some p }
      else x : Item).names = x.names ∧ (if x.container = some s then
        { x with container := some p } else x : Item).body = x.body := by
    intro x
    split <;> exact ⟨rfl,rfl⟩
  have hinner : (q.withLifted p s S).container? s = some (Container.bare S.kind) := by
    rw [hlook,hs,Option.map_some,if_pos rfl]
  have houter : (q.withLifted p s S).container? p = some (taking S P) := by
    rw [hlook,hP,Option.map_some,if_neg hne,if_pos rfl]
  constructor
  · refine h.owned.lift hs hP hne (item?_withLifted h hs) ⟨_,hinner,fun b => ?_⟩
      ⟨_,houter,fun b => ?_⟩ fun c h1 h2 => ?_
    · cases b <;> rfl
    · cases b <;> rfl
    · rw [hlook]
      cases q.container? c with
      | none => rfl
      | some C =>
        simp only [Option.map_some,if_neg h1,if_neg h2]
        split
        · rw [(members_reparent p C).1]
        · rfl
  · refine h.nested.lift hs hsp hP ⟨_,hinner,hsp,rfl⟩ ⟨_,houter,rfl,rfl⟩ fun c h1 h2 => ?_
    rw [hlook]
    cases hC : q.container? c with
    | none => rfl
    | some C =>
      simp only [Option.map_some,if_neg h1,if_neg h2,h.nested.mem_subqueries hs hC]
      split
      · rename_i hp
        rw [parent?_reparent hp,(members_reparent p C).2]
      · rfl
  · refine h.named.of_sub fun i z hz => ?_
    rw [item?_withLifted h hs] at hz
    obtain ⟨x,hx,rfl⟩ := Option.map_eq_some_iff.mp hz
    refine ⟨x,hx,hbody.1,?_⟩
    rw [Item.isComposite,Item.isComposite,Item.kind,Item.kind,hbody.2]
  · refine h.incident.of_same fun j => ?_
    rw [item?_withLifted h hs]
    cases q.item? j with
    | none => rfl
    | some x => simp only [Option.map_some,hbody.2]

theorem flatten_ok (h : q.WellFormed) (hs : q.container? s = some S)
    (hsp : S.parent? = some p) :
    flatten s q = .ok () ((q.withLifted p s S).withoutSubquery p s) := by
  obtain ⟨hne,hss,hps⟩ := h.nested.around hs hsp
  obtain ⟨P,hP,-⟩ := h.nested.listed hs hsp
  have hlive : (q.container? s).isSome = true := by rw [hs]; rfl
  have hitems := forM_modifyItem (f:=fun item => { item with container := some p })
    (l:=S.vertices ++ S.edges) (q:=q.mapContainer s fun _ => Container.bare S.kind) (fun i hi => by
      have hlisted : ∃ b, i ∈ S.members b :=
        (List.mem_append.mp hi).elim (fun h => ⟨true,h⟩) fun h => ⟨false,h⟩
      obtain ⟨b,hb⟩ := hlisted
      obtain ⟨y,hy,-⟩ := h.owned.member hs hb
      rw [item?_mapContainer,hy]
      rfl)
  have hnested := forM_modifyContainer (f:=Container.reparent p) (l:=S.subqueries)
    (q:=(S.vertices ++ S.edges).foldl
      (fun q i => q.mapItem i fun item => { item with container := some p })
      (q.mapContainer s fun _ => Container.bare S.kind)) (fun n hn => by
      obtain ⟨N,hN,-⟩ := h.nested.child hs hn
      rw [container?_foldl_mapItem,container?_mapContainer,hN]
      split <;> rfl)
  have hparent : ((S.subqueries.foldl (fun q n => q.mapContainer n (Container.reparent p))
      ((S.vertices ++ S.edges).foldl
        (fun q i => q.mapItem i fun item => { item with container := some p })
        (q.mapContainer s fun _ => Container.bare S.kind))).container? p).isSome = true := by
    rw [container?_foldl_mapContainer (reparent_reparent p),container?_foldl_mapItem,
      container?_mapContainer,if_neg hne,hP]
    rfl
  have hinner : (q.withLifted p s S).container? s = some (Container.bare S.kind) := by
    rw [container?_withLifted s hne hss hps,hs,Option.map_some,if_pos rfl]
  have hlast := removeSubquery_ok (h.withLifted hs hsp) hinner hsp rfl
  rw [flatten,bind_of_ok (get_apply q),container_of_some hs,bind_of_ok (lift_ok _ q)]
  simp only [hsp]
  rw [bind_of_ok (modifyContainer_ok hlive),bind_of_ok hitems,bind_of_ok hnested,
    bind_of_ok (modifyContainer_ok hparent)]
  exact (bind_of_ok hlast _).trans rfl

theorem flatten_cases (q : Query) (s : ContainerId) : Refuses (flatten s) q ∨
    ∃ S p, q.container? s = some S ∧ S.parent? = some p := by
  cases hs : q.container? s with
  | none => left; simp [Refuses,flatten,bind_apply,container_of_none hs]
  | some S =>
    cases hp : S.parent? with
    | none => left; simp [Refuses,flatten,bind_apply,container_of_some hs,hp]
    | some p => exact .inr ⟨S,p,rfl,hp⟩

theorem WellFormed.flattened (h : q.WellFormed) (hs : q.container? s = some S)
    (hsp : S.parent? = some p) : ((q.withLifted p s S).withoutSubquery p s).WellFormed := by
  obtain ⟨hne,hss,hps⟩ := h.nested.around hs hsp
  refine (h.withLifted hs hsp).withoutSubquery (S:=Container.bare S.kind) ?_ hsp rfl
  rw [container?_withLifted s hne hss hps,hs,Option.map_some,if_pos rfl]

end Lifted

end GraphPattern.Query
