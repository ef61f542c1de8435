import GraphPattern.Proofs.Step

/-!
# Edits as changes of slots

Every edit of a query comes down to changing, adding and emptying slots of items and containers.
These changes are total functions here, each with the laws of looking an item or a container up
after it, and the steps of the library are shown to run them.
-/

namespace GraphPattern.Query

open Step

/-- The number that the next item gets. -/
def nextItem (q : Query) : ItemId := ⟨q.items.next⟩

/-- The number that the next container gets. -/
def nextContainer (q : Query) : ContainerId := ⟨q.containers.next⟩

/-- The query with one more item. -/
def pushItem (q : Query) (item : Item) : Query := { q with items := q.items.push item }

/-- The query with one item changed. -/
def mapItem (q : Query) (i : ItemId) (f : Item → Item) : Query :=
  { q with items := q.items.modify i.index f }

/-- The query without one item. -/
def dropItem (q : Query) (i : ItemId) : Query := { q with items := q.items.erase i.index }

/-- The query with one more container. -/
def pushContainer (q : Query) (container : Container) : Query :=
  { q with containers := q.containers.push container }

/-- The query with one container changed. -/
def mapContainer (q : Query) (c : ContainerId) (f : Container → Container) : Query :=
  { q with containers := q.containers.modify c.index f }

/-- The query without one container. -/
def dropContainer (q : Query) (c : ContainerId) : Query :=
  { q with containers := q.containers.erase c.index }

/-- What one of two look-ups that agree finds has a counterpart in the other one. -/
theorem exists_of_map_eq {α β γ : Type} {f : α → γ} {g : β → γ} {x : Option α} {y : Option β} {a : α}
    (h : x.map f = y.map g) (hx : x = some a) : ∃ b, y = some b ∧ g b = f a := by
  rw [hx,Option.map_some] at h
  exact Option.map_eq_some_iff.mp h.symm

variable (q : Query)

theorem item?_nextItem : q.item? q.nextItem = none := by
  simp [item?,nextItem,Arena.get?,Arena.next]

/-- A live item does not have the next number. -/
theorem ne_nextItem {q : Query} {i : ItemId} {x : Item} (hx : q.item? i = some x) :
    i ≠ q.nextItem := fun he => by
  rw [he,item?_nextItem] at hx
  cases hx

theorem container?_nextContainer : q.container? q.nextContainer = none := by
  simp [container?,nextContainer,Arena.get?,Arena.next]

/-- Numbers of live items have been given out. -/
theorem index_lt_of_item? {q : Query} {i : ItemId} {item : Item} (h : q.item? i = some item) :
    i.index<q.items.next := by
  by_contra hn
  simp only [item?,Arena.get?,Arena.next] at h hn
  rw [List.getElem?_eq_none (by omega)] at h
  cases h

/-- Numbers of live containers have been given out. -/
theorem index_lt_of_container? {q : Query} {c : ContainerId} {container : Container}
    (h : q.container? c = some container) : c.index<q.containers.next := by
  by_contra hn
  simp only [container?,Arena.get?,Arena.next] at h hn
  rw [List.getElem?_eq_none (by omega)] at h
  cases h

@[simp] theorem item?_pushItem (item : Item) (j : ItemId) :
    (q.pushItem item).item? j = if j = q.nextItem then some item else q.item? j := by
  by_cases h : j = q.nextItem
  · rw [if_pos h,h]
    exact Arena.get?_push_next q.items item
  · rw [if_neg h]
    exact Arena.get?_push_of_ne q.items item fun hi => h (congrArg ItemId.mk hi)

@[simp] theorem item?_mapItem (i j : ItemId) (f : Item → Item) :
    (q.mapItem i f).item? j = if j = i then (q.item? j).map f else q.item? j := by
  simp only [item?,mapItem,Arena.get?_modify]
  by_cases h : j = i
  · rw [if_pos h,if_pos (h ▸ rfl)]
  · rw [if_neg h,if_neg fun hi => h (congrArg ItemId.mk hi).symm]

@[simp] theorem item?_dropItem (i j : ItemId) :
    (q.dropItem i).item? j = if j = i then none else q.item? j := by
  simp only [item?,dropItem,Arena.get?_erase]
  by_cases h : j = i
  · rw [if_pos h,if_pos (h ▸ rfl)]
  · rw [if_neg h,if_neg fun hi => h (congrArg ItemId.mk hi).symm]

@[simp] theorem container?_pushContainer (container : Container) (d : ContainerId) :
    (q.pushContainer container).container? d =
      if d = q.nextContainer then some container else q.container? d := by
  by_cases h : d = q.nextContainer
  · rw [if_pos h,h]
    exact Arena.get?_push_next q.containers container
  · rw [if_neg h]
    exact Arena.get?_push_of_ne q.containers container fun hi => h (congrArg ContainerId.mk hi)

@[simp] theorem container?_mapContainer (c d : ContainerId) (f : Container → Container) :
    (q.mapContainer c f).container? d =
      if d = c then (q.container? d).map f else q.container? d := by
  simp only [container?,mapContainer,Arena.get?_modify]
  by_cases h : d = c
  · rw [if_pos h,if_pos (h ▸ rfl)]
  · rw [if_neg h,if_neg fun hi => h (congrArg ContainerId.mk hi).symm]

@[simp] theorem container?_dropContainer (c d : ContainerId) :
    (q.dropContainer c).container? d = if d = c then none else q.container? d := by
  simp only [container?,dropContainer,Arena.get?_erase]
  by_cases h : d = c
  · rw [if_pos h,if_pos (h ▸ rfl)]
  · rw [if_neg h,if_neg fun hi => h (congrArg ContainerId.mk hi).symm]

@[simp] theorem container?_pushItem (item : Item) (d : ContainerId) :
    (q.pushItem item).container? d = q.container? d := rfl

@[simp] theorem container?_mapItem (i : ItemId) (f : Item → Item) (d : ContainerId) :
    (q.mapItem i f).container? d = q.container? d := rfl

@[simp] theorem container?_dropItem (i : ItemId) (d : ContainerId) :
    (q.dropItem i).container? d = q.container? d := rfl

@[simp] theorem item?_pushContainer (container : Container) (j : ItemId) :
    (q.pushContainer container).item? j = q.item? j := rfl

@[simp] theorem item?_mapContainer (c : ContainerId) (f : Container → Container) (j : ItemId) :
    (q.mapContainer c f).item? j = q.item? j := rfl

@[simp] theorem item?_dropContainer (c : ContainerId) (j : ItemId) :
    (q.dropContainer c).item? j = q.item? j := rfl

@[simp] theorem nextItem_mapItem (i : ItemId) (f : Item → Item) :
    (q.mapItem i f).nextItem = q.nextItem := by
  simp [nextItem,mapItem]

@[simp] theorem nextItem_dropItem (i : ItemId) : (q.dropItem i).nextItem = q.nextItem := by
  simp [nextItem,dropItem]

variable {q : Query}

theorem item_of_some {i : ItemId} {x : Item} (h : q.item? i = some x) : q.item i = .ok x := by
  rw [item,h]
  rfl

theorem item?_of_item {i : ItemId} {x : Item} (h : q.item i = .ok x) : q.item? i = some x := by
  rw [item] at h
  split at h
  · cases h
    assumption
  · cases h

theorem item_of_none {i : ItemId} (h : q.item? i = none) :
    q.item i = .error (.state (.unknownItem i)) := by
  rw [item,h]
  rfl

theorem container_of_some {c : ContainerId} {C : Container} (h : q.container? c = some C) :
    q.container c = .ok C := by
  rw [container,h]
  rfl

theorem container_of_none {c : ContainerId} (h : q.container? c = none) :
    q.container c = .error (.state (.unknownContainer c)) := by
  rw [container,h]
  rfl

theorem vertexEdges_of_some {i : ItemId} {x : Item} {edges : List ItemId}
    (h : q.item? i = some x) (he : x.edges? = some edges) : q.vertexEdges i = .ok edges := by
  simp [vertexEdges,item_of_some h,he]

theorem edgeEnds_of_some {i : ItemId} {x : Item} {ends : EdgeEnds} (h : q.item? i = some x)
    (he : x.ends? = some ends) : q.edgeEnds i = .ok ends := by
  simp [edgeEnds,item_of_some h,he]

/-- The edges of a vertex are found exactly where there is a vertex. -/
theorem vertexEdges_cases (q : Query) (i : ItemId) : (∃ e, q.vertexEdges i = .error e) ∨
    ∃ x edges, q.item? i = some x ∧ x.edges? = some edges ∧ q.vertexEdges i = .ok edges := by
  cases h : q.item? i with
  | none => exact .inl ⟨_,by rw [vertexEdges,item_of_none h]; rfl⟩
  | some x =>
    cases he : x.edges? with
    | none => exact .inl ⟨_,by rw [vertexEdges,item_of_some h,ok_bind,he]; rfl⟩
    | some edges => exact .inr ⟨x,edges,rfl,he,vertexEdges_of_some h he⟩

/-- The ends of an edge are found exactly where there is an edge. -/
theorem edgeEnds_cases (q : Query) (i : ItemId) : (∃ e, q.edgeEnds i = .error e) ∨
    ∃ x ends, q.item? i = some x ∧ x.ends? = some ends ∧ q.edgeEnds i = .ok ends := by
  cases h : q.item? i with
  | none => exact .inl ⟨_,by rw [edgeEnds,item_of_none h]; rfl⟩
  | some x =>
    cases he : x.ends? with
    | none => exact .inl ⟨_,by rw [edgeEnds,item_of_some h,ok_bind,he]; rfl⟩
    | some ends => exact .inr ⟨x,ends,rfl,he,edgeEnds_of_some h he⟩

/-- What an item becomes depends on the item alone. -/
theorem mapItem_congr {i : ItemId} {x : Item} {f g : Item → Item} (hx : q.item? i = some x)
    (hf : f x = g x) : q.mapItem i f = q.mapItem i g := by
  have hslots : q.items.slots.modify i.index (Option.map f) =
      q.items.slots.modify i.index (Option.map g) := by
    refine List.ext_getElem? fun j => ?_
    rw [List.getElem?_modify,List.getElem?_modify]
    split
    · rename_i hj
      have hslot : q.items.slots[j]? = some (some x) := by
        simpa [item?,Arena.get?,Option.join_eq_some_iff,hj] using hx
      rw [hslot]
      simp [hf]
    · rfl
  simp only [mapItem,Arena.modify,hslots]

theorem mapItem_mapItem (q : Query) (i : ItemId) (f g : Item → Item) :
    (q.mapItem i f).mapItem i g = q.mapItem i fun x => g (f x) := by
  have hslots : (q.items.slots.modify i.index (Option.map f)).modify i.index (Option.map g) =
      q.items.slots.modify i.index (Option.map fun x => g (f x)) := by
    refine List.ext_getElem? fun j => ?_
    simp only [List.getElem?_modify]
    split
    · cases q.items.slots[j]? with
      | none => rfl
      | some o => cases o <;> rfl
    · cases q.items.slots[j]? <;> rfl
  simp only [mapItem,Arena.modify,hslots]

/-- Changing a live item succeeds. -/
theorem modifyItem_ok {i : ItemId} {f : Item → Item} (h : (q.item? i).isSome = true) :
    modifyItem i f q = .ok () (q.mapItem i f) := by
  obtain ⟨x,hx⟩ := Option.isSome_iff_exists.mp h
  simp [modifyItem,bind_apply,item_of_some hx,mapItem]

/-- Changing a live container succeeds. -/
theorem modifyContainer_ok {c : ContainerId} {f : Container → Container}
    (h : (q.container? c).isSome = true) :
    modifyContainer c f q = .ok () (q.mapContainer c f) := by
  obtain ⟨C,hC⟩ := Option.isSome_iff_exists.mp h
  simp [modifyContainer,bind_apply,container_of_some hC,mapContainer]

/-- Changing an item that is not live is refused. -/
theorem modifyItem_refuses {i : ItemId} {f : Item → Item} (h : q.item? i = none) :
    Refuses (modifyItem i f) q :=
  ⟨_,by simp [modifyItem,bind_apply,item_of_none h]; rfl⟩

/-- Changing a container that is not live is refused. -/
theorem modifyContainer_refuses {c : ContainerId} {f : Container → Container}
    (h : q.container? c = none) : Refuses (modifyContainer c f) q :=
  ⟨_,by simp [modifyContainer,bind_apply,container_of_none h]; rfl⟩

end GraphPattern.Query
