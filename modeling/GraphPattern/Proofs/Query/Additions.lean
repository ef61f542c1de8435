import GraphPattern.Proofs.Query.WellFormed

/-!
# Adding to a query

Each addition is described twice over: when it succeeds and what the query is then, and that it is
refused in every other case. A refusal leaves the query as it was, and a success keeps it well
formed.
-/

namespace GraphPattern.Query

open Step

variable {q : Query}

theorem register_apply (item : Item) (c : ContainerId) (q : Query) :
    register item c q = .ok q.nextItem (q.pushItem { item with container := some c }) := rfl

theorem checkDetached_of_none {item : Item} (h : item.container = none) :
    checkDetached item = .ok () := by
  rw [checkDetached,h]
  rfl

/-! ## Vertices -/

/-- The query with one more vertex. -/
def withVertex (q : Query) (c : ContainerId) (v : Item) : Query :=
  (q.pushItem { v with container := some c }).mapContainer c fun C =>
    { C with vertices := C.vertices ++ [q.nextItem] }

theorem addVertex_ok {c : ContainerId} {v : Item} {C : Container} (hv : v.edges? = some [])
    (hd : v.container = none) (hc : q.container? c = some C) (hf : q.Free v.names none) :
    addVertex c v q = .ok q.nextItem (q.withVertex c v) := by
  have hl : ((q.pushItem { v with container := some c }).container? c).isSome = true := by
    rw [container?_pushItem,hc]
    rfl
  simp only [addVertex,hv,List.isEmpty_nil,Bool.not_true,Bool.false_eq_true,if_false,bind_apply,
    checkDetached_of_none hd,lift_ok,get_apply,container_of_some hc,checkNames_eq_ok.mpr hf,
    register_apply,modifyContainer_ok hl,pure_apply]
  rfl

theorem addVertex_cases (q : Query) (c : ContainerId) (v : Item) : Refuses (addVertex c v) q ∨
    ∃ C, v.edges? = some [] ∧ v.container = none ∧ q.container? c = some C ∧
      q.Free v.names none := by
  unfold addVertex Refuses
  cases hv : v.edges? with
  | none => exact .inl ⟨_,rfl⟩
  | some edges =>
    cases edges with
    | cons => exact .inl ⟨_,rfl⟩
    | nil =>
      cases hd : v.container with
      | some => left; simp [checkDetached,hd,bind_apply]
      | none =>
        cases hc : q.container? c with
        | none => left; simp [checkDetached,hd,bind_apply,container_of_none hc]
        | some C =>
          cases hn : q.checkNames v.names none with
          | error => left; simp [checkDetached,hd,bind_apply,container_of_some hc,hn]
          | ok => exact .inr ⟨C,rfl,rfl,rfl,checkNames_eq_ok.mp hn⟩

theorem WellFormed.withVertex (h : q.WellFormed) {c : ContainerId} {C : Container} {v : Item}
    (hv : v.edges? = some []) (hn : v.WellNamed) (hc : q.container? c = some C)
    (hf : q.Free v.names none) : (q.withVertex c v).WellFormed where
  owned := by
    have hv' : v.isVertex = true := Item.isVertex_iff.mpr ⟨[],hv⟩
    refine h.owned.push hc rfl fun b => ?_
    cases b
    · simp [Container.members,Item.isVertex] at hv' ⊢
      simp [hv']
    · simp [Container.members,Item.isVertex] at hv' ⊢
      simp [hv']
  nested := h.nested.of_same fun d => by
    rw [Query.withVertex,container?_mapContainer,container?_pushItem]
    split
    · cases q.container? d with
      | none => rfl
      | some C => rfl
    · rfl
  named := h.named.of_put (z:=v) (j:=q.nextItem) hn
    (fun i x hx _ => hf i x hx (fun he => by cases he)) fun i x hx => by
      rw [Query.withVertex,item?_mapContainer,item?_pushItem] at hx
      split at hx
      · rename_i hi
        cases hx
        rw [if_pos hi]
        exact ⟨rfl,rfl⟩
      · rename_i hi
        rw [if_neg hi]
        exact ⟨x,hx,rfl,rfl⟩
  incident := (h.incident.pushVertex (x:={ v with container := some c }) hv).of_same fun j => rfl

/-! ## Edges -/

/-- The ends of a new edge: the vertices that have the names written for them. -/
def resolve (q : Query) (ends : EdgeEnds) : EdgeEnds :=
  { ends with
    source := q.vertexContaining? ends.sourceName
    target := q.vertexContaining? ends.targetName }

/-- The query with one more edge. -/
def withEdge (q : Query) (c : ContainerId) (e : Item) (ends : EdgeEnds) : Query :=
  (mapEndVertices (q.resolve ends) (Item.attach q.nextItem)
    (q.pushItem { (e.mapEnds q.resolve) with container := some c })).mapContainer c
      fun C => { C with edges := C.edges ++ [q.nextItem] }

theorem live_of_vertexContaining? {name : String} {v : ItemId}
    (h : q.vertexContaining? name = some v) :
    v ∈ q.vertices .whole ∧ ∃ x, q.item? v = some x ∧ name ∈ x.names := by
  have hs := List.find?_some h
  rw [itemSatisfies,Option.any_eq_true] at hs
  obtain ⟨x,hx,hn⟩ := hs
  exact ⟨List.mem_of_find?_eq_some h,x,hx,by simpa [Item.hasName] using hn⟩

theorem touches_resolve {ends : EdgeEnds} {v : ItemId} (h : (q.resolve ends).Touches v) :
    v ∈ q.vertices .whole ∧ ∃ x, q.item? v = some x ∧
      (ends.sourceName ∈ x.names ∨ ends.targetName ∈ x.names) := by
  rcases h with h|h
  · obtain ⟨hm,x,hx,hn⟩ := live_of_vertexContaining? h
    exact ⟨hm,x,hx,.inl hn⟩
  · obtain ⟨hm,x,hx,hn⟩ := live_of_vertexContaining? h
    exact ⟨hm,x,hx,.inr hn⟩

theorem addEdge_ok {c : ContainerId} {e : Item} {ends : EdgeEnds} {C : Container}
    (he : e.ends? = some ends) (hd : e.container = none) (hc : q.container? c = some C)
    (hf : q.Free e.names none) : addEdge c e q = .ok q.nextItem (q.withEdge c e ends) := by
  have hv : ∀ v, (q.resolve ends).Touches v →
      ((q.pushItem { (e.mapEnds q.resolve) with container := some c }).item? v).isSome = true := by
    intro v hv
    obtain ⟨-,x,hx,-⟩ := touches_resolve hv
    rw [item?_pushItem,hx]
    split <;> rfl
  have hl : ((mapEndVertices (q.resolve ends) (Item.attach q.nextItem)
      (q.pushItem { (e.mapEnds q.resolve) with container := some c })).container? c).isSome =
      true := by
    rw [(rewired_mapEndVertices _ (Item.sameButIncidence_attach _) _).container?,
      container?_pushItem,hc]
    rfl
  have hm : e.mapEnds (fun f => { f with
      source := q.vertexContaining? ends.sourceName
      target := q.vertexContaining? ends.targetName }) = e.mapEnds q.resolve := by
    cases e with
    | mk names body => cases body with
      | vertex => rfl
      | edge => cases he; rfl
  have hforM := forM_modifyItem (f:=Item.attach q.nextItem)
    (l:=[(q.resolve ends).source,(q.resolve ends).target].reduceOption) fun v hv' =>
      hv v (mem_reduceOption_ends.mp hv')
  simp only [addEdge,he,bind_apply,checkDetached_of_none hd,lift_ok,get_apply,
    container_of_some hc,checkNames_eq_ok.mpr hf,register_apply,hm]
  simp only [resolve] at hforM
  rw [hforM]
  simp only [resolve,mapEndVertices] at hl
  simp only [modifyContainer_ok hl,pure_apply]
  rfl

theorem addEdge_cases (q : Query) (c : ContainerId) (e : Item) : Refuses (addEdge c e) q ∨
    ∃ ends C, e.ends? = some ends ∧ e.container = none ∧ q.container? c = some C ∧
      q.Free e.names none := by
  cases he : e.ends? with
  | none => exact .inl ⟨_,by rw [addEdge,he]; rfl⟩
  | some ends =>
    cases hd : e.container with
    | some => left; simp [Refuses,addEdge,he,checkDetached,hd,bind_apply]
    | none =>
      cases hc : q.container? c with
      | none => left; simp [Refuses,addEdge,he,checkDetached,hd,bind_apply,container_of_none hc]
      | some C =>
        cases hn : q.checkNames e.names none with
        | error =>
          left
          simp [Refuses,addEdge,he,checkDetached,hd,bind_apply,container_of_some hc,hn]
        | ok => exact .inr ⟨ends,C,rfl,rfl,rfl,checkNames_eq_ok.mp hn⟩

theorem WellFormed.isVertex_of_mem (h : q.WellFormed) {v : ItemId} {x : Item}
    (hv : v ∈ q.vertices .whole) (hx : q.item? v = some x) : x.isVertex = true := by
  obtain ⟨c,C,hc,hm⟩ := exists_container_of_mem hv
  obtain ⟨y,hy,hb,-⟩ := h.owned.member (b:=true) hc hm
  rw [hx] at hy
  cases hy
  exact hb

/-- The ends of an edge that is added, as they stand in its slot. -/
theorem ends?_resolved (q : Query) (c : ContainerId) {e : Item} {ends : EdgeEnds}
    (he : e.ends? = some ends) :
    ({ (e.mapEnds q.resolve) with container := some c } : Item).ends? = some (q.resolve ends) := by
  change (e.mapEnds q.resolve).ends? = _
  rw [Item.ends?_mapEnds,he]
  rfl

theorem WellFormed.withEdge (h : q.WellFormed) {c : ContainerId} {C : Container} {e : Item}
    {ends : EdgeEnds} (he : e.ends? = some ends) (hn : e.WellNamed)
    (hc : q.container? c = some C) (hf : q.Free e.names none) :
    (q.withEdge c e ends).WellFormed := by
  have hfresh := q.item?_nextItem
  -- The edge with its ends, as it stands in its slot.
  have hse := Item.sameButIncidence_mapEnds q.resolve e
  have hnew := ends?_resolved q c he
  have hlive : ∀ v, (q.resolve ends).Touches v → ∃ x, q.item? v = some x ∧ x.isVertex = true := by
    intro v hv
    obtain ⟨hm,x,hx,-⟩ := touches_resolve hv
    exact ⟨x,hx,h.isVertex_of_mem hm hx⟩
  have hrew := rewired_mapEndVertices (q.resolve ends) (Item.sameButIncidence_attach q.nextItem)
    (q.pushItem { (e.mapEnds q.resolve) with container := some c })
  have hbody : ({ (e.mapEnds q.resolve) with container := some c } : Item).isVertex = false :=
    Item.not_isVertex_iff.mpr ⟨_,hnew⟩
  constructor
  · have howned : ((q.pushItem { (e.mapEnds q.resolve) with container := some c }).mapContainer c
        fun C => { C with edges := C.edges ++ [q.nextItem] }).Owned := by
      refine h.owned.push hc rfl fun b => ?_
      rw [hbody]
      cases b <;> rfl
    refine howned.of_same (fun j => ?_) fun d => ?_
    · rw [Query.withEdge,item?_mapContainer,item?_mapContainer]
      cases hx : Query.item? _ j with
      | none =>
        cases hy : (q.pushItem _).item? j with
        | none => rfl
        | some y =>
          obtain ⟨x,hx',-⟩ := hrew.forward hy
          rw [hx] at hx'
          cases hx'
      | some x =>
        obtain ⟨y,hy,hxy⟩ := hrew.backward hx
        rw [hy,Option.map_some,Option.map_some,hxy.isVertex,hxy.container]
    · rw [Query.withEdge,container?_mapContainer,container?_mapContainer,hrew.container?]
  · refine h.nested.of_same fun d => ?_
    rw [Query.withEdge,container?_mapContainer,hrew.container?,container?_pushItem]
    split
    · cases q.container? d with
      | none => rfl
      | some C => rfl
    · rfl
  · refine h.named.of_put (z:=e) (j:=q.nextItem) hn
      (fun i x hx _ => hf i x hx (fun he => by cases he)) fun i x hx => ?_
    rw [Query.withEdge,item?_mapContainer] at hx
    obtain ⟨y,hy,hxy⟩ := hrew.backward hx
    rw [item?_pushItem] at hy
    split at hy
    · rename_i hi
      cases hy
      rw [if_pos hi]
      exact ⟨hxy.names.trans hse.names,hxy.isComposite.trans hse.isComposite⟩
    · rename_i hi
      rw [if_neg hi]
      exact ⟨y,hy,hxy.names,hxy.isComposite⟩
  · refine h.incident.pushEdge hnew hlive fun j => ?_
    rw [Query.withEdge,item?_mapContainer,
      item?_mapEndVertices (fun x => Item.attach_attach q.nextItem x),item?_pushItem]
    by_cases hj : j = q.nextItem
    · have hnt : ¬(q.resolve ends).Touches j := fun ht => by
        obtain ⟨x,hx,-⟩ := hlive j ht
        rw [hj,hfresh] at hx
        cases hx
      rw [if_pos hj,if_pos hj,Option.map_some,if_neg hnt]
    · rw [if_neg hj,if_neg hj]

/-! ## Subqueries -/

/-- The query with one more subquery, which has no members. -/
def withSubquery (q : Query) (p : ContainerId) (bounds : Option Annotation) : Query :=
  (q.pushContainer (Container.bare (.subquery p bounds))).mapContainer p
    fun C => { C with subqueries := C.subqueries ++ [q.nextContainer] }

theorem addSubquery_ok {p : ContainerId} {P : Container} (hp : q.container? p = some P)
    (bounds : Option Annotation) :
    addSubquery p bounds q = .ok q.nextContainer (q.withSubquery p bounds) := by
  have hl : ((q.pushContainer (Container.bare (.subquery p bounds))).container? p).isSome =
      true := by
    rw [container?_pushContainer,hp]
    split <;> rfl
  simp only [pushContainer] at hl
  simp only [addSubquery,bind_apply,get_apply,container_of_some hp,lift_ok,set_apply,
    modifyContainer_ok hl,pure_apply]
  rfl

theorem addSubquery_cases (q : Query) (p : ContainerId) (bounds : Option Annotation) :
    Refuses (addSubquery p bounds) q ∨ ∃ P, q.container? p = some P := by
  cases hp : q.container? p with
  | none => left; simp [Refuses,addSubquery,bind_apply,container_of_none hp]
  | some P => exact .inr ⟨P,rfl⟩

theorem WellFormed.withSubquery (h : q.WellFormed) {p : ContainerId} {P : Container}
    (hp : q.container? p = some P) (bounds : Option Annotation) :
    (q.withSubquery p bounds).WellFormed where
  owned := (h.owned.pushContainer (C:=Container.bare (.subquery p bounds))
    (fun b => by cases b <;> rfl)).of_same (fun j => rfl) fun d => by
      rw [Query.withSubquery,container?_mapContainer]
      split
      · cases Query.container? _ d with
        | none => rfl
        | some D => rfl
      · rfl
  nested := h.nested.push hp rfl rfl ⟨rfl,rfl⟩
  named := h.named.of_sub fun i x hx => ⟨x,hx,rfl,rfl⟩
  incident := h.incident.of_same fun j => rfl

/-! ## Constraints, links and cached items -/

/-- A constraint with the note whether its first item is an edge. -/
def noted (q : Query) (constraint : Constraint) : Constraint :=
  { constraint with
    onEdges := (constraint.itemNames.head?.bind q.itemNamed?).any (q.itemSatisfies Item.isEdge) }

theorem addConstraint_apply (q : Query) (c : ContainerId) (constraint : Constraint) :
    addConstraint c constraint q = modifyContainer c (fun C =>
      { C with constraints := C.constraints ++ [q.noted constraint] }) q := by
  rw [addConstraint,bind_of_ok (get_apply q)]
  rfl

theorem addConstraint_ok {c : ContainerId} {C : Container} (hc : q.container? c = some C)
    (constraint : Constraint) : addConstraint c constraint q =
      .ok () (q.mapContainer c fun C =>
        { C with constraints := C.constraints ++ [q.noted constraint] }) := by
  rw [addConstraint_apply,modifyContainer_ok (by rw [hc]; rfl)]

theorem addDerivedLink_ok {c : ContainerId} {C : Container} (hc : q.container? c = some C)
    (link : DerivedLink) : addDerivedLink c link q =
      .ok () (q.mapContainer c fun C => { C with links := C.links ++ [link] }) :=
  modifyContainer_ok (by rw [hc]; rfl)

theorem addCachedItem_ok {c : ContainerId} {C : Container} {item source : String}
    (hi : item ≠ "") (hc : q.container? c = some C) (hn : C.cached.contains item = false) :
    addCachedItem c item source q =
      .ok () (q.mapContainer c fun C => { C with cached := C.cached.insert item source }) := by
  have hl : (q.container? c).isSome = true := by rw [hc]; rfl
  simp only [addCachedItem,if_neg hi,bind_apply,get_apply,container_of_some hc,lift_ok,hn,
    Bool.false_eq_true,if_false,modifyContainer_ok hl]

theorem addConstraint_cases (q : Query) (c : ContainerId) (constraint : Constraint) :
    Refuses (addConstraint c constraint) q ∨ ∃ C, q.container? c = some C := by
  cases hc : q.container? c with
  | none =>
    obtain ⟨e,he⟩ := modifyContainer_refuses hc
    exact .inl ⟨e,(addConstraint_apply q c constraint).trans he⟩
  | some C => exact .inr ⟨C,rfl⟩

theorem addDerivedLink_cases (q : Query) (c : ContainerId) (link : DerivedLink) :
    Refuses (addDerivedLink c link) q ∨ ∃ C, q.container? c = some C := by
  cases hc : q.container? c with
  | none => exact .inl (modifyContainer_refuses hc)
  | some C => exact .inr ⟨C,rfl⟩

theorem addCachedItem_cases (q : Query) (c : ContainerId) (item source : String) :
    Refuses (addCachedItem c item source) q ∨
      ∃ C, item ≠ "" ∧ q.container? c = some C ∧ C.cached.contains item = false := by
  by_cases hi : item = ""
  · left; simp [Refuses,addCachedItem,hi,bind_apply]
  · cases hc : q.container? c with
    | none => left; simp [Refuses,addCachedItem,hi,bind_apply,container_of_none hc]
    | some C =>
      cases hn : C.cached.contains item with
      | true => left; simp [Refuses,addCachedItem,hi,bind_apply,container_of_some hc,hn]
      | false => exact .inr ⟨C,hi,rfl,hn⟩

end GraphPattern.Query
