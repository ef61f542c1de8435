import GraphPattern.Proofs.Query.Slots

/-!
# Ownership

An item names the container that owns it, and a container lists the items that it owns, vertices
apart from edges. The two views agree when every listed item is live, of the kind of its list and
owned by the lister, when nothing is listed twice, and when every live item is listed by its owner.
-/

namespace GraphPattern

/-- The vertices of a container, or its edges. -/
def Container.members (c : Container) (vertices : Bool) : List ItemId :=
  if vertices then c.vertices else c.edges

namespace Query

section HandedOver

variable {α : Type} {s p c : ContainerId} {given own : List α} {a : α}

/-- A list of a container after the list of a container was handed over to another one. -/
def handedOver (s p c : ContainerId) (given own : List α) : List α :=
  if c = s then [] else if c = p then own ++ given else own

theorem mem_handedOver :
    a ∈ handedOver s p c given own ↔ c ≠ s ∧ (a ∈ own ∨ c = p ∧ a ∈ given) := by
  rw [handedOver]
  split
  · simp_all
  · split <;> simp_all

theorem nodup_handedOver (ho : own.Nodup) (hg : given.Nodup) (h : c = p → ∀ a ∈ own, a ∉ given) :
    (handedOver s p c given own).Nodup := by
  rw [handedOver]
  split
  · exact List.nodup_nil
  · split
    · rename_i hcp
      exact List.nodup_append.mpr ⟨ho,hg,fun a ha b hb he => h hcp a ha (he ▸ hb)⟩
    · exact ho

end HandedOver

/-- Owners and lists of members agree. -/
structure Owned (q : Query) : Prop where
  /-- A listed item is live, of the kind of its list and owned by the lister. -/
  member : ∀ {c C b i}, q.container? c = some C → i ∈ C.members b →
    ∃ item, q.item? i = some item ∧ item.isVertex = b ∧ item.container = some c
  /-- No list repeats an item. -/
  nodup : ∀ {c C} (b : Bool), q.container? c = some C → (C.members b).Nodup
  /-- A live item is listed by the container that it names as its owner. -/
  owner : ∀ {i item}, q.item? i = some item →
    ∃ c C, item.container = some c ∧ q.container? c = some C ∧ i ∈ C.members item.isVertex

namespace Owned

variable {q : Query}

/-- An item is listed by no container but its owner, and only among its kind. -/
theorem mem_unique (h : q.Owned) {c d : ContainerId} {C D : Container} {b b' : Bool} {i : ItemId}
    (hc : q.container? c = some C) (hi : i ∈ C.members b)
    (hd : q.container? d = some D) (hj : i ∈ D.members b') : c = d ∧ b = b' := by
  obtain ⟨item,hitem,hb,ho⟩ := h.member hc hi
  obtain ⟨item',hitem',hb',ho'⟩ := h.member hd hj
  rw [hitem] at hitem'
  cases hitem'
  exact ⟨Option.some.inj (ho.symm.trans ho'),hb.symm.trans hb'⟩

/-- A new item at the end of a list of its owner. -/
theorem push (h : q.Owned) {c : ContainerId} {C : Container} {item : Item}
    {f : Container → Container} (hc : q.container? c = some C) (ho : item.container = some c)
    (hf : ∀ b, (f C).members b =
      if b = item.isVertex then C.members b ++ [q.nextItem] else C.members b) :
    ((q.pushItem item).mapContainer c f).Owned := by
  have hn := q.item?_nextItem
  constructor
  · intro d D b i hD hi
    have hm := @h.member
    simp only [container?_mapContainer,container?_pushItem,item?_mapContainer,
      item?_pushItem] at hD ⊢
    grind
  · intro d D b hD
    have hm := @h.member
    have hnd := @h.nodup
    simp only [container?_mapContainer,container?_pushItem] at hD
    grind [List.nodup_append]
  · intro i x hi
    have ho' := @h.owner
    simp only [container?_mapContainer,container?_pushItem,item?_mapContainer,
      item?_pushItem] at hi ⊢
    grind

/-- Only the kinds and the owners of items and the lists of containers count. -/
theorem of_same (h : q.Owned) {q' : Query}
    (hi : ∀ j, (q'.item? j).map (fun x => (x.isVertex,x.container)) =
      (q.item? j).map fun x => (x.isVertex,x.container))
    (hc : ∀ c, (q'.container? c).map Container.members =
      (q.container? c).map Container.members) : q'.Owned := by
  constructor
  · intro c C b i hC hi'
    obtain ⟨D,hD,hm⟩ := exists_of_map_eq (hc c) hC
    obtain ⟨x,hx,hb,ho⟩ := h.member hD (hm ▸ hi')
    obtain ⟨y,hy,hyx⟩ := exists_of_map_eq (hi i).symm hx
    obtain ⟨hyv,hyo⟩ := Prod.mk.inj hyx
    exact ⟨y,hy,hyv.trans hb,hyo.trans ho⟩
  · intro c C b hC
    obtain ⟨D,hD,hm⟩ := exists_of_map_eq (hc c) hC
    exact hm ▸ h.nodup b hD
  · intro i x hx
    obtain ⟨y,hy,hyx⟩ := exists_of_map_eq (hi i) hx
    obtain ⟨c,D,ho,hD,hm⟩ := h.owner hy
    obtain ⟨C,hC,he⟩ := exists_of_map_eq (hc c).symm hD
    obtain ⟨hyv,hyo⟩ := Prod.mk.inj hyx
    exact ⟨c,C,hyo.symm.trans ho,hC,by rwa [he,← hyv]⟩

/-- A new container without items. -/
theorem pushContainer (h : q.Owned) {C : Container} (hC : ∀ b, C.members b = []) :
    (q.pushContainer C).Owned := by
  have hn := q.container?_nextContainer
  constructor
  · intro d D b i hD hi
    have hm := @h.member
    simp only [container?_pushContainer,item?_pushContainer] at hD ⊢
    grind
  · intro d D b hD
    have hnd := @h.nodup
    simp only [container?_pushContainer] at hD
    grind [List.nodup_nil]
  · intro i x hi
    have ho := @h.owner
    simp only [container?_pushContainer,item?_pushContainer] at hi ⊢
    grind

/-- Removal of a container without items. -/
theorem dropContainer (h : q.Owned) {c : ContainerId} {C : Container}
    (hc : q.container? c = some C) (hC : ∀ b, C.members b = []) : (q.dropContainer c).Owned := by
  constructor
  · intro d D b i hD hi
    have hm := @h.member
    simp only [container?_dropContainer,item?_dropContainer] at hD ⊢
    grind
  · intro d D b hD
    have hnd := @h.nodup
    simp only [container?_dropContainer] at hD
    grind
  · intro i x hi
    have ho := @h.owner
    simp only [container?_dropContainer,item?_dropContainer] at hi ⊢
    grind

/-- Removal of an item from its slot and from the list of its owner. -/
theorem drop (h : q.Owned) {c : ContainerId} {C : Container} {i : ItemId} {item : Item}
    {f : Container → Container} (hi : q.item? i = some item) (ho : item.container = some c)
    (hc : q.container? c = some C)
    (hf : ∀ b, (f C).members b =
      if b = item.isVertex then (C.members b).filter (· ≠ i) else C.members b) :
    ((q.mapContainer c f).dropItem i).Owned := by
  constructor
  · intro d D b j hD hj
    have hm := @h.member
    simp only [container?_mapContainer,container?_dropItem,item?_mapContainer,
      item?_dropItem] at hD ⊢
    grind
  · intro d D b hD
    have hnd := @h.nodup
    simp only [container?_mapContainer,container?_dropItem] at hD
    grind
  · intro j x hj
    have ho' := @h.owner
    simp only [container?_mapContainer,container?_dropItem,item?_mapContainer,
      item?_dropItem] at hj ⊢
    grind

theorem mem_replaceFirst (old new i : ItemId) {is : List ItemId} (h : is.Nodup) :
    i ∈ replaceFirst old new is ↔ (old ∈ is ∧ i = new) ∨ (i ∈ is ∧ i ≠ old) := by
  induction is with
  | nil => simp [replaceFirst]
  | cons j js ih =>
    have ih := ih (List.nodup_cons.mp h).2
    have hj := (List.nodup_cons.mp h).1
    rw [replaceFirst]
    split <;> grind

theorem nodup_replaceFirst (old : ItemId) {new : ItemId} {is : List ItemId} (h : is.Nodup)
    (hn : new ∉ is) : (replaceFirst old new is).Nodup := by
  induction is with
  | nil => exact h
  | cons j js ih =>
    obtain ⟨hj,hjs⟩ := List.nodup_cons.mp h
    have hnj : new ≠ j := fun he => hn (he ▸ List.mem_cons_self)
    have hnjs : new ∉ js := fun hm => hn (List.mem_cons_of_mem _ hm)
    rw [replaceFirst]
    split
    · exact List.nodup_cons.mpr ⟨hnjs,hjs⟩
    · refine List.nodup_cons.mpr ⟨fun hm => ?_,ih hjs hnjs⟩
      rcases (mem_replaceFirst old new _ hjs).mp hm with ⟨-,he⟩|⟨hm,-⟩
      · exact hnj he.symm
      · exact hj hm

/-- A new vertex in the place of another one. -/
theorem replace (h : q.Owned) {c : ContainerId} {C : Container} {i : ItemId} {item new : Item}
    {f : Container → Container} (hi : q.item? i = some item) (hv : item.isVertex = true)
    (ho : item.container = some c) (hc : q.container? c = some C) (hnv : new.isVertex = true)
    (hno : new.container = some c)
    (hf : ∀ b, (f C).members b =
      if b = true then replaceFirst i q.nextItem (C.members b) else C.members b) :
    (((q.dropItem i).pushItem new).mapContainer c f).Owned := by
  have hn := q.item?_nextItem
  have hm := @h.member
  have hfresh : q.nextItem ∉ C.members true := fun hx => by
    obtain ⟨x,hx,-⟩ := hm hc hx
    rw [hn] at hx
    cases hx
  have hmem := fun j => mem_replaceFirst i q.nextItem j (h.nodup true hc)
  have hnodup := nodup_replaceFirst i (h.nodup true hc) hfresh
  have hin : i ∈ C.members true := by
    obtain ⟨d,D,hd,hD,hiD⟩ := h.owner hi
    rw [ho] at hd
    cases hd
    rw [hc] at hD
    cases hD
    exact hv ▸ hiD
  constructor
  · intro d D b j hD hj
    simp only [container?_mapContainer,container?_pushItem,container?_dropItem,
      item?_mapContainer,item?_pushItem,nextItem_dropItem,item?_dropItem] at hD ⊢
    grind
  · intro d D b hD
    have hnd := @h.nodup
    simp only [container?_mapContainer,container?_pushItem,container?_dropItem] at hD
    grind
  · intro j x hj
    have ho' := @h.owner
    simp only [container?_mapContainer,container?_pushItem,container?_dropItem,
      item?_mapContainer,item?_pushItem,nextItem_dropItem,item?_dropItem] at hj ⊢
    grind

/-- The members of one container handed over to another one. -/
theorem lift (h : q.Owned) {s p : ContainerId} {S P : Container} {q' : Query}
    (hs : q.container? s = some S) (hp : q.container? p = some P) (hne : p ≠ s)
    (hi : ∀ j, q'.item? j = (q.item? j).map fun x =>
      if x.container = some s then { x with container := some p } else x)
    (hcs : ∃ S', q'.container? s = some S' ∧ ∀ b, S'.members b = [])
    (hcp : ∃ P', q'.container? p = some P' ∧ ∀ b, P'.members b = P.members b ++ S.members b)
    (hc : ∀ c, c ≠ s → c ≠ p → (q'.container? c).map Container.members =
      (q.container? c).map Container.members) : q'.Owned := by
  obtain ⟨S',hS',hSm⟩ := hcs
  obtain ⟨P',hP',hPm⟩ := hcp
  have hlists : ∀ c, (q'.container? c).map Container.members =
      (q.container? c).map fun C b => handedOver s p c (S.members b) (C.members b) := by
    intro c
    by_cases hcs : c = s
    · rw [hcs,hS',hs,Option.map_some,Option.map_some]
      exact congrArg some (funext fun b => by rw [hSm,handedOver,if_pos rfl])
    · by_cases hcp : c = p
      · rw [hcp,hP',hp,Option.map_some,Option.map_some]
        exact congrArg some (funext fun b => by rw [hPm,handedOver,if_neg hne,if_pos rfl])
      · simp only [handedOver,if_neg hcs,if_neg hcp]
        exact hc c hcs hcp
  have hitem : ∀ {j x}, q.item? j = some x → ∃ y, q'.item? j = some y ∧ y.isVertex = x.isVertex ∧
      y.container = if x.container = some s then some p else x.container := by
    intro j x hx
    rw [hi,hx,Option.map_some]
    refine ⟨_,rfl,?_,?_⟩ <;> split <;> rfl
  constructor
  · intro c C' b j hC' hj
    obtain ⟨C,hC,hm⟩ := exists_of_map_eq (hlists c) hC'
    rw [← hm] at hj
    obtain ⟨hcs,hown|⟨rfl,hgiven⟩⟩ := mem_handedOver.mp hj
    · obtain ⟨x,hx,hb,ho⟩ := h.member hC hown
      obtain ⟨y,hy,hyb,hyo⟩ := hitem hx
      exact ⟨y,hy,hyb.trans hb,by rw [hyo,ho,if_neg fun he => hcs (Option.some.inj he)]⟩
    · obtain ⟨x,hx,hb,ho⟩ := h.member hs hgiven
      obtain ⟨y,hy,hyb,hyo⟩ := hitem hx
      exact ⟨y,hy,hyb.trans hb,by rw [hyo,if_pos ho]⟩
  · intro c C' b hC'
    obtain ⟨C,hC,hm⟩ := exists_of_map_eq (hlists c) hC'
    rw [← hm]
    exact nodup_handedOver (h.nodup b hC) (h.nodup b hs) fun hcp j hj hk =>
      hne (hcp ▸ (h.mem_unique hC hj hs hk).1)
  · intro j y hy
    rw [hi] at hy
    obtain ⟨x,hx,rfl⟩ := Option.map_eq_some_iff.mp hy
    obtain ⟨c,C,ho,hC,hj⟩ := h.owner hx
    by_cases hcs : c = s
    · subst hcs
      rw [hs] at hC
      cases hC
      rw [if_pos ho]
      exact ⟨p,P',rfl,hP',by rw [hPm]; exact List.mem_append_right _ hj⟩
    · rw [if_neg fun he => hcs (Option.some.inj (ho.symm.trans he))]
      obtain ⟨C',hC',hm⟩ := exists_of_map_eq (hlists c).symm hC
      exact ⟨c,C',ho,hC',by rw [hm]; exact mem_handedOver.mpr ⟨hcs,.inl hj⟩⟩

end Owned

end Query

end GraphPattern
