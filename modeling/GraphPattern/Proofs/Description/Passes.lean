import GraphPattern.Proofs.Description.Reading
import GraphPattern.Proofs.Query.Content

/-!
# Passes over containers

Building passes over the containers three times: vertices come first, then edges, then what is
declared about them. Each pass amends every container once and in its place. Ends of edges are looked
up when all vertices are there, so they are the vertices of the names that are written for them.
-/

namespace GraphPattern

open Step

namespace Query

variable {q q' : Query} {c : ContainerId} {v : ItemId} {n : String}

/-- Cached items that come to none stand in the order of their names. -/
theorem Caches.settled {added es : List CachedEntry} (h : Caches added [] es) :
    es = sortBy (fun a b => a.item < b.item) added := by
  obtain ⟨hperm,hsorted⟩ := h
  rw [List.append_nil] at hperm
  have hp : (es.map CachedEntry.item).Pairwise (· < ·) := hsorted .nil
  have hnodup : (es.map CachedEntry.item).Nodup := hp.imp fun hlt => ne_of_lt hlt
  refine (hperm.trans (sortBy_perm _ _).symm).eq_of_pairwise (fun a b ha hb hab hba => ?_)
    ((List.pairwise_map.mp hp).imp fun hlt => le_of_lt hlt)
    (pairwise_sortBy (f:=CachedEntry.item) (fun _ _ => decide_eq_true_iff) added)
  have hb' : b ∈ es := hperm.mem_iff.mpr ((sortBy_perm _ _).mem_iff.mp hb)
  exact List.inj_on_of_nodup_map hnodup ha hb' (le_antisymm hab hba)

/-! ## Ends of edges -/

/-- The number belongs to the plain vertex of a name. -/
def VertexNamed (q : Query) (v : ItemId) (n : String) : Prop :=
  ∃ e, q.describeVertex? v = some e ∧ e.name = n

/-- Every end of an edge is the vertex of the name that is written for it, if there is one. -/
structure Resolved (q : Query) : Prop where
  /-- The first ends are. -/
  source : ∀ {i x ends}, q.item? i = some x → x.ends? = some ends →
    ∀ v, ends.source = some v ↔ q.VertexNamed v ends.sourceName
  /-- The second ends are. -/
  target : ∀ {i x ends}, q.item? i = some x → x.ends? = some ends →
    ∀ v, ends.target = some v ↔ q.VertexNamed v ends.targetName

theorem Written.vertexNamed_iff (h : q.Written) :
    q.VertexNamed v n ↔ ∃ x, q.item? v = some x ∧ x.isVertex = true ∧ n ∈ x.names := by
  constructor
  · rintro ⟨e,he,rfl⟩
    obtain ⟨x,hx,he⟩ := Option.bind_eq_some_iff.mp he
    obtain ⟨name,hname⟩ := (h.item hx).single
    rw [Item.describeVertex?,Item.onlyName?,hname] at he
    split at he
    · rename_i hk
      cases he
      exact ⟨x,hx,Item.isVertex_of_kind (.inl hk),by rw [hname]; exact List.mem_singleton_self _⟩
    · cases he
  · rintro ⟨x,hx,hv,hn⟩
    obtain ⟨name,hname⟩ := (h.item hx).single
    rw [hname,List.mem_singleton] at hn
    have hk : x.kind = .vertex := by
      have hplain := (h.item hx).plain
      obtain ⟨names,body⟩ := x
      cases body with
      | edge => cases hv
      | vertex composite =>
        cases composite with
        | true => exact absurd rfl hplain
        | false => rfl
    refine ⟨⟨name,x.condition,x.bounds⟩,?_,hn.symm⟩
    rw [describeVertex?,hx,Option.bind_some,Item.describeVertex?,if_pos hk,Item.onlyName?,hname]
    rfl

/-- A name is looked up among the vertices, and one of them at most has it. -/
theorem Written.vertexContaining?_eq_some (h : q.Written) :
    q.vertexContaining? n = some v ↔ q.VertexNamed v n := by
  rw [h.vertexNamed_iff]
  constructor
  · intro hv
    obtain ⟨hm,x,hx,hn⟩ := live_of_vertexContaining? hv
    exact ⟨x,hx,h.wellFormed.isVertex_of_mem hm hx,hn⟩
  · rintro ⟨x,hx,hv,hn⟩
    have hs : (q.vertexContaining? n).isSome = true := List.find?_isSome.mpr
      ⟨v,h.wellFormed.mem_vertices.mpr ⟨x,hx,hv⟩,by simp [itemSatisfies,hx,Item.hasName,hn]⟩
    obtain ⟨u,hu⟩ := Option.isSome_iff_exists.mp hs
    obtain ⟨-,y,hy,hny⟩ := live_of_vertexContaining? hu
    rw [hu,h.wellFormed.named.disjoint hy hx hny hn]

/-- Other changes than of items leave the ends resolved. -/
theorem Resolved.of_same (h : q.Resolved) (hi : ∀ i, q'.item? i = q.item? i) : q'.Resolved := by
  have hnamed : ∀ v n, q'.VertexNamed v n ↔ q.VertexNamed v n := fun v n => by
    rw [VertexNamed,VertexNamed,describeVertex?,describeVertex?,hi]
  constructor
  · intro i x ends hx he v
    rw [hnamed]
    exact h.source (hi i ▸ hx) he v
  · intro i x ends hx he v
    rw [hnamed]
    exact h.target (hi i ▸ hx) he v

/-- The ends of a new edge are resolved, and those of the old ones stay so. -/
theorem Resolved.withEdge (h : q.Resolved) (hq : q.Written) {e : Item} {ends : EdgeEnds}
    (he : e.ends? = some ends) : (q.withEdge c e ends).Resolved := by
  have hnew := ends?_resolved q c he
  have hnamed : ∀ v n, (q.withEdge c e ends).VertexNamed v n ↔ q.VertexNamed v n := by
    have hsame : ∀ v, (q.withEdge c e ends).describeVertex? v = q.describeVertex? v := by
      intro v
      refine (entries_attachEnds _ _ _ v).1.trans ?_
      rw [describeVertex?,describeVertex?,item?_pushItem]
      split
      · rename_i hv
        rw [hv,q.item?_nextItem]
        obtain ⟨names,body⟩ := e
        cases body with
        | vertex => cases he
        | edge => rfl
      · rfl
    intro v n
    rw [VertexNamed,VertexNamed,hsame]
  -- An edge is the new one, with the ends that were looked up, or it was there with the same ends.
  have hends : ∀ {i x ends'}, (q.withEdge c e ends).item? i = some x → x.ends? = some ends' →
      ends' = q.resolve ends ∨ ∃ y, q.item? i = some y ∧ y.ends? = some ends' := by
    intro i x ends' hx hx'
    rw [Query.withEdge,item?_mapContainer,
      item?_mapEndVertices (fun x => Item.attach_attach q.nextItem x)] at hx
    obtain ⟨y,hy,rfl⟩ := Option.map_eq_some_iff.mp hx
    have hy' : y.ends? = some ends' := by
      rw [← hx']
      split
      · exact (Item.ends?_attach _ y).symm
      · rfl
    rw [item?_pushItem] at hy
    split at hy
    · cases hy
      exact .inl (Option.some.inj (hy'.symm.trans hnew))
    · exact .inr ⟨y,hy,hy'⟩
  constructor
  · intro i x ends' hx hx' v
    rw [hnamed]
    rcases hends hx hx' with rfl|⟨y,hy,hy'⟩
    · exact hq.vertexContaining?_eq_some
    · exact h.source hy hy' v
  · intro i x ends' hx hx' v
    rw [hnamed]
    rcases hends hx hx' with rfl|⟨y,hy,hy'⟩
    · exact hq.vertexContaining?_eq_some
    · exact h.target hy hy' v

/-- What the later passes rely on and keep. -/
structure Built (q : Query) : Prop where
  /-- The query is as a user can write it. -/
  written : q.Written
  /-- The ends of its edges are the vertices of their names. -/
  resolved : q.Resolved

/-- Declarations keep what the passes rely on. -/
theorem Built.declare (h : q.Built) {f : Container → Container}
    (hf : ∀ C, (f C).members = C.members ∧ (f C).parent? = C.parent? ∧
      (f C).subqueries = C.subqueries) : (q.mapContainer c f).Built :=
  ⟨h.written.of_same (h.written.wellFormed.mapContainer fun C _ => hf C) fun _ => rfl,
    h.resolved.of_same fun _ => rfl⟩

end Query

/-! ## Passes over one container -/

namespace Description

open Query

variable {q q' : Query} {c : ContainerId} {members : Members} {u : Unit}

theorem amends_addVertices (hq : q.Written) (h : addVertices c members q = .ok u q') :
    Amends c (fun m m' => m' = { m with vertices := m.vertices ++ members.vertices }) q q' ∧
      q'.Written := by
  refine amends_forM (R:=fun as m m' => m' = { m with vertices := m.vertices ++ as })
    (fun m => by rw [List.append_nil]) (fun a as m m' m'' h h' => by rw [h',h,List.append_assoc]; rfl)
    (fun entry _ q u q' hq hrun => ?_) hq h
  obtain ⟨x,q₁,hentry,hrun⟩ := bind_eq_ok.mp hrun
  obtain ⟨hx,rfl⟩ := lift_eq_ok.mp hentry
  obtain ⟨i,q₂,hadd,hrun⟩ := bind_eq_ok.mp hrun
  cases hrun
  obtain ⟨hw,hd,-⟩ := VertexEntry.item_ok hx
  obtain ⟨C,hedges,howner,hC,hf⟩ := not_refused (addVertex_cases q c x) hadd
  rw [addVertex_ok hedges howner hC hf] at hadd
  cases hadd
  exact ⟨amends_withVertex hq.wellFormed (VertexEntry.describeVertex?_item hx),
    hq.withVertex hw hedges hd.named hC hf⟩

theorem amends_addEdges (hq : q.Built) (h : addEdges c members q = .ok u q') :
    Amends c (fun m m' => m' = { m with edges := m.edges ++ members.edges }) q q' ∧ q'.Built := by
  refine amends_forM (R:=fun as m m' => m' = { m with edges := m.edges ++ as })
    (fun m => by rw [List.append_nil]) (fun a as m m' m'' h h' => by rw [h',h,List.append_assoc]; rfl)
    (fun entry _ q u q' hq hrun => ?_) hq h
  obtain ⟨x,q₁,hentry,hrun⟩ := bind_eq_ok.mp hrun
  obtain ⟨hx,rfl⟩ := lift_eq_ok.mp hentry
  obtain ⟨i,q₂,hadd,hrun⟩ := bind_eq_ok.mp hrun
  cases hrun
  obtain ⟨hw,hd,-⟩ := EdgeEntry.item_ok hx
  obtain ⟨ends,C,hends,howner,hC,hf⟩ := not_refused (addEdge_cases q c x) hadd
  rw [addEdge_ok hends howner hC hf] at hadd
  cases hadd
  exact ⟨amends_withEdge hq.written.wellFormed (EdgeEntry.describeEdge?_item hx),
    hq.written.withEdge hw hends hd.named hC hf,hq.resolved.withEdge hq.written hends⟩

theorem amends_constraints {entries : List ConstraintEntry} (hq : q.Built)
    (h : (entries.forM fun entry => do
      Query.addConstraint c (← entry.constraint) : QueryEdit Unit) q = .ok u q') :
    Amends c (fun m m' => m' =
      { m with constraints := m.constraints ++ entries.map ConstraintEntry.settled }) q q' ∧
      q'.Built := by
  refine amends_forM (R:=fun as m m' => m' =
      { m with constraints := m.constraints ++ as.map ConstraintEntry.settled })
    (fun m => by rw [List.map_nil,List.append_nil])
    (fun a as m m' m'' h h' => by rw [h',h,List.append_assoc]; rfl)
    (fun entry _ q u q' hq hrun => ?_) hq h
  obtain ⟨k,q₁,hentry,hadd⟩ := bind_eq_ok.mp hrun
  obtain ⟨hk,rfl⟩ := lift_eq_ok.mp hentry
  obtain ⟨C,hC⟩ := not_refused (addConstraint_cases q c k) hadd
  rw [addConstraint_ok hC] at hadd
  cases hadd
  have ha := amends_constraint (c:=c) hq.written.wellFormed k
  rw [ConstraintEntry.entry_constraint hk] at ha
  exact ⟨ha,hq.declare fun _ => ⟨rfl,rfl,rfl⟩⟩

theorem amends_links {entries : List DerivedLink} (hq : q.Built)
    (h : (entries.forM fun entry => do
      let link ← DerivedLink.ofNames entry.source entry.target entry.attr entry.value
      Query.addDerivedLink c link : QueryEdit Unit) q = .ok u q') :
    Amends c (fun m m' => m' = { m with links := m.links ++ entries }) q q' ∧ q'.Built := by
  refine amends_forM (R:=fun as m m' => m' = { m with links := m.links ++ as })
    (fun m => by rw [List.append_nil]) (fun a as m m' m'' h h' => by rw [h',h,List.append_assoc]; rfl)
    (fun entry _ q u q' hq hrun => ?_) hq h
  obtain ⟨l,q₁,hentry,hadd⟩ := bind_eq_ok.mp hrun
  obtain ⟨hl,rfl⟩ := lift_eq_ok.mp hentry
  obtain ⟨C,hC⟩ := not_refused (addDerivedLink_cases q c l) hadd
  rw [addDerivedLink_ok hC] at hadd
  cases hadd
  rw [DerivedLink.ofNames_ok hl]
  exact ⟨amends_link hq.written.wellFormed entry,hq.declare fun _ => ⟨rfl,rfl,rfl⟩⟩

theorem amends_cachedItems {entries : List CachedEntry} (hq : q.Built)
    (h : (entries.forM fun entry => Query.addCachedItem c entry.item entry.container) q = .ok u q') :
    Amends c (fun m m' => m' = { m with cached := m'.cached } ∧
      Caches entries m.cached m'.cached) q q' ∧ q'.Built := by
  refine amends_forM (R:=fun as m m' => m' = { m with cached := m'.cached } ∧
      Caches as m.cached m'.cached) (fun m => ⟨rfl,.refl _,id⟩)
    (fun a as m m' m'' h h' => ⟨by rw [h'.1,h.1],?_,fun hp => h'.2.2 (h.2.2 hp)⟩)
    (fun entry _ q u q' hq hadd => ?_) hq h
  · exact (h'.2.1.trans (h.2.1.append_left as)).trans List.perm_middle
  · obtain ⟨C,hi,hC,hn⟩ := not_refused (addCachedItem_cases q c entry.item entry.container) hadd
    rw [addCachedItem_ok hi hC hn] at hadd
    cases hadd
    exact ⟨amends_cached hq.written.wellFormed hC hn,hq.declare fun _ => ⟨rfl,rfl,rfl⟩⟩

/-- The entries of a container when its declarations have come to them. -/
def Declares (members m m' : Members) : Prop :=
  m' = { m with
    constraints := m.constraints ++ members.constraints.map ConstraintEntry.settled
    links := m.links ++ members.links
    cached := m'.cached } ∧ Caches members.cached m.cached m'.cached

theorem amends_addDeclarations (hq : q.Built) (h : addDeclarations c members q = .ok u q') :
    Amends c (Declares members) q q' ∧ q'.Built := by
  obtain ⟨_,q₁,h₁,h⟩ := bind_eq_ok.mp h
  obtain ⟨_,q₂,h₂,h₃⟩ := bind_eq_ok.mp h
  obtain ⟨ha₁,hq₁⟩ := amends_constraints hq h₁
  obtain ⟨ha₂,hq₂⟩ := amends_links hq₁ h₂
  obtain ⟨ha₃,hq'⟩ := amends_cachedItems hq₂ h₃
  have ha₁₂ := ha₁.trans ha₂ (T:=fun m m' => m' =
    { m with
      constraints := m.constraints ++ members.constraints.map ConstraintEntry.settled
      links := m.links ++ members.links }) fun m m' m'' h h' => by rw [h',h]
  refine ⟨ha₁₂.trans ha₃ fun m m' m'' h h' => ⟨?_,?_⟩,hq'⟩
  · rw [h'.1,h]
  · have hcaches := h'.2
    rwa [h] at hcaches

/-! ## Passes over all containers -/

/-- The second query shows what the first one shows, but for the entries of the listed containers,
each of which has changed in a way that a relation allows. -/
structure AmendsAll (es : List (ContainerId × Members)) (R : Members → Members → Members → Prop)
    (q q' : Query) : Prop where
  /-- The name is the same. -/
  name : q'.name = q.name
  /-- The description is the same. -/
  description : q'.description = q.description
  /-- The containers lie as they lay. -/
  frame : ∀ d, q'.frame? d = q.frame? d
  /-- Other containers show the same entries. -/
  other : ∀ d, d ∉ es.map Prod.fst → q'.members? d = q.members? d
  /-- The entries of the listed containers have changed. -/
  own : ∀ e ∈ es, ∀ m, q.members? e.1 = some m →
    ∃ m', q'.members? e.1 = some m' ∧ R e.2 m m'

/-- A pass that amends each container in its turn amends all of them once. -/
theorem amendsAll_forM {x : ContainerId × Members → QueryEdit Unit}
    {R : Members → Members → Members → Prop} {es : List (ContainerId × Members)}
    (hx : ∀ e q u q', q.Built → x e q = .ok u q' → Amends e.1 (R e.2) q q' ∧ q'.Built)
    (hes : (es.map Prod.fst).Nodup) (hq : q.Built) (h : es.forM x q = .ok u q') :
    AmendsAll es R q q' ∧ q'.Built := by
  induction es generalizing q with
  | nil =>
    cases h
    exact ⟨⟨rfl,rfl,fun _ => rfl,fun _ _ => rfl,fun _ he => absurd he List.not_mem_nil⟩,hq⟩
  | cons e es ih =>
    obtain ⟨hne,hes⟩ := List.nodup_cons.mp hes
    obtain ⟨_,q₁,h₁,h⟩ := bind_eq_ok.mp h
    obtain ⟨ha,hq₁⟩ := hx e q _ q₁ hq h₁
    obtain ⟨has,hq'⟩ := ih hes hq₁ h
    refine ⟨⟨has.name.trans ha.name,has.description.trans ha.description,
      fun d => (has.frame d).trans (ha.frame d),fun d hd => ?_,fun f hf m hm => ?_⟩,hq'⟩
    · rw [List.map_cons,List.mem_cons,not_or] at hd
      exact (has.other d hd.2).trans (ha.other d hd.1)
    · rcases List.mem_cons.mp hf with rfl|hf
      · obtain ⟨m',hm',hR⟩ := ha.own m hm
        exact ⟨m',(has.other _ hne).trans hm',hR⟩
      · have hfe : f.1 ≠ e.1 := fun he => hne (he ▸ List.mem_map_of_mem hf)
        exact has.own f hf m ((ha.other _ hfe).trans hm)

end Description

end GraphPattern
