import GraphPattern.Proofs.Query.Moves

/-!
# Histories of edits

A query is built and changed by edits, each of which may be refused. One edit keeps a query well
formed and never brings a number back into use; a history of edits does so by induction on its
length. The listing of the containers and the numbering of items and containers are what the later
stages rely on.
-/

namespace GraphPattern

/-- The items that can be made outside of a query: a fresh vertex, composite vertex or edge, with
any condition, annotation and marker that it may carry. -/
inductive Item.Made : Item → Prop
  /-- A plain vertex. -/
  | vertex {name : String} {x : Item} : Item.newVertex name = .ok x → Made x
  /-- A composite vertex. -/
  | composite {names : List String} {x : Item} : Item.newComposite names = .ok x → Made x
  /-- An edge. -/
  | edge {name source target : String} {directed : Bool} {x : Item} :
    Item.newEdge name source target directed = .ok x → Made x
  /-- With another condition. -/
  | condition {x : Item} (condition : Option Condition) :
    Made x → Made { x with condition := condition }
  /-- With another annotation. -/
  | bounds {x : Item} (bounds : Option Annotation) : Made x → Made { x with bounds := bounds }
  /-- With another marker. -/
  | provenance {x y : Item} {marker : Option Provenance} :
    Made x → x.withProvenance marker = .ok y → Made y

/-- What an item brings along when it enters a query. -/
structure Item.Detached (x : Item) : Prop where
  /-- It has no owner. -/
  owner : x.container = none
  /-- It is well named. -/
  named : x.WellNamed
  /-- As a vertex it has no edges. -/
  edges : x.isVertex = true → x.edges? = some []

theorem Item.Detached.of_same {x y : Item} (h : x.Detached) (hn : y.names = x.names)
    (hb : y.body = x.body) (hc : y.container = x.container) : y.Detached := by
  have hk : y.isComposite = x.isComposite := by
    rw [Item.isComposite,Item.isComposite,Item.kind,Item.kind,hb]
  refine ⟨hc.trans h.owner,h.named.of_same hn hk,fun hv => ?_⟩
  rw [Item.edges?,hb]
  exact h.edges (by rwa [Item.isVertex,hb] at hv)

theorem Item.WellNamed.bare {name : String} (hn : name ≠ "") (body : ItemBody) :
    (Item.bare [name] body).WellNamed where
  nonempty := List.cons_ne_nil name []
  proper hm := hn (List.mem_singleton.mp hm).symm
  increasing := List.pairwise_singleton _ name
  single _ := rfl

theorem Item.Made.detached {x : Item} (h : x.Made) : x.Detached := by
  induction h with
  | @vertex name x hx =>
    by_cases hn : name = ""
    · simp [Item.newVertex,Item.checkName,hn] at hx
    · simp only [Item.newVertex,Item.checkName,hn,if_false,Step.except_pure,Step.ok_bind] at hx
      cases hx
      exact ⟨rfl,.bare hn _,fun _ => rfl⟩
  | @composite names x hx =>
    obtain ⟨hne,hproper,rfl⟩ := Query.newComposite_eq_ok.mp hx
    refine ⟨rfl,⟨fun he => ?_,fun hm => ?_,pairwise_orderedSet names,(fun h => by cases h)⟩,fun _ => rfl⟩
    · obtain ⟨n,hn⟩ := List.exists_mem_of_ne_nil _ hne
      have hm := mem_orderedSet.mpr hn
      rw [show orderedSet names = [] from he] at hm
      cases hm
    · exact hproper (mem_orderedSet.mp hm)
  | @edge name source target directed x hx =>
    by_cases hn : name = ""
    · simp [Item.newEdge,Item.checkName,hn] at hx
    · by_cases he : (source = "" || target = "") = true
      · simp [Item.newEdge,Item.checkName,hn,he] at hx
      · simp only [Item.newEdge,Item.checkName,hn,he,if_false,Step.except_pure,Step.ok_bind] at hx
        cases hx
        exact ⟨rfl,.bare hn _,fun h => by cases h⟩
  | condition _ _ ih => exact ih.of_same rfl rfl rfl
  | bounds _ _ ih => exact ih.of_same rfl rfl rfl
  | provenance _ hy ih =>
    obtain ⟨-,rfl⟩ := Query.withProvenance_eq_ok.mp hy
    exact ih.of_same rfl rfl rfl

/-- An edit with its arguments. -/
inductive Edit where
  /-- Add a vertex to a container. -/
  | addVertex (container : ContainerId) (vertex : { x : Item // x.Made })
  /-- Add an edge to a container. -/
  | addEdge (container : ContainerId) (edge : { x : Item // x.Made })
  /-- Add a subquery below a container. -/
  | addSubquery (parent : ContainerId) (bounds : Option Annotation)
  /-- Add a constraint to a container. -/
  | addConstraint (container : ContainerId) (constraint : Constraint)
  /-- Add a request for derived links to a container. -/
  | addDerivedLink (container : ContainerId) (link : DerivedLink)
  /-- Add a cached item to a container. -/
  | addCachedItem (container : ContainerId) (item source : String)
  /-- Remove an edge. -/
  | removeEdge (edge : ItemId)
  /-- Remove a vertex. -/
  | removeVertex (vertex : ItemId)
  /-- Remove a subquery. -/
  | removeSubquery (subquery : ContainerId)
  /-- Remove a constraint. -/
  | removeConstraint (constraint : Constraint)
  /-- Remove a request for derived links. -/
  | removeDerivedLink (link : DerivedLink)
  /-- Remove a cached item. -/
  | removeCachedItem (item : String)
  /-- Replace a vertex. -/
  | replaceVertex (current : ItemId) (replacement : { x : Item // x.Made })
  /-- Absorb an edge and the vertex at one of its ends. -/
  | absorb (edge absorbed : ItemId)
  /-- Add names to a composite vertex. -/
  | addNames (target : ItemId) (names : List String)
  /-- Flatten a subquery into the container around it. -/
  | flatten (subquery : ContainerId)
  /-- Replace the annotation of an item. -/
  | setBounds (item : ItemId) (bounds : Option Annotation)
  /-- Replace the marker of an item. -/
  | setProvenance (item : ItemId) (marker : Option Provenance)

namespace Edit

/-- The step of an edit, whose answer does not matter here. -/
def run : Edit → QueryEdit Unit
  | addVertex c v => do let _ ← Query.addVertex c v.1
  | addEdge c e => do let _ ← Query.addEdge c e.1
  | addSubquery p bounds => do let _ ← Query.addSubquery p bounds
  | addConstraint c k => Query.addConstraint c k
  | addDerivedLink c l => Query.addDerivedLink c l
  | addCachedItem c item source => Query.addCachedItem c item source
  | removeEdge e => do let _ ← Query.removeEdge e
  | removeVertex v => do let _ ← Query.removeVertex v
  | removeSubquery s => do let _ ← Query.removeSubquery s
  | removeConstraint k => do let _ ← Query.removeConstraint k
  | removeDerivedLink l => do let _ ← Query.removeDerivedLink l
  | removeCachedItem item => do let _ ← Query.removeCachedItem item
  | replaceVertex i v => do let _ ← Query.replaceVertex i v.1
  | absorb e old => Query.absorb e old
  | addNames i names => Query.addNames i names
  | flatten s => Query.flatten s
  | setBounds i bounds => Query.setBounds i bounds
  | setProvenance i marker => Query.setProvenance i marker

/-- The query after an edit, whether the edit succeeds or is refused. -/
def after (e : Edit) (q : Query) : Query :=
  match e.run q with
  | .ok _ q' => q'
  | .error _ q' => q'

end Edit

namespace Query

open Step

/-- The query after some edits, one after another. -/
def edited (q : Query) (es : List Edit) : Query := es.foldl (fun q e => e.after q) q

/-- The second query comes later than the first one: numbers are only given out, and what is not
live any more stays so. -/
structure Later (q q' : Query) : Prop where
  /-- Item numbers given out stay given out. -/
  items : q.items.next≤q'.items.next
  /-- Container numbers given out stay given out. -/
  containers : q.containers.next≤q'.containers.next
  /-- A removed item does not come back. -/
  item : ∀ i : ItemId, i.index<q.items.next → q.item? i = none → q'.item? i = none
  /-- A removed container does not come back. -/
  container : ∀ c : ContainerId, c.index<q.containers.next → q.container? c = none →
    q'.container? c = none

namespace Later

variable {q q' q'' : Query}

theorem refl (q : Query) : q.Later q :=
  ⟨Nat.le_refl _,Nat.le_refl _,fun _ _ h => h,fun _ _ h => h⟩

theorem trans (h : q.Later q') (h' : q'.Later q'') : q.Later q'' where
  items := Nat.le_trans h.items h'.items
  containers := Nat.le_trans h.containers h'.containers
  item i hi hn := h'.item i (Nat.lt_of_lt_of_le hi h.items) (h.item i hi hn)
  container c hc hn := h'.container c (Nat.lt_of_lt_of_le hc h.containers) (h.container c hc hn)

theorem mapItem (q : Query) (i : ItemId) (f : Item → Item) : q.Later (q.mapItem i f) where
  items := Nat.le_of_eq (Arena.next_modify _ _ _).symm
  containers := Nat.le_refl _
  item j _ hn := by
    rw [item?_mapItem,hn]
    split <;> rfl
  container _ _ hn := hn

theorem dropItem (q : Query) (i : ItemId) : q.Later (q.dropItem i) where
  items := Nat.le_of_eq (Arena.next_erase _ _).symm
  containers := Nat.le_refl _
  item j _ hn := by
    rw [item?_dropItem,hn]
    split <;> rfl
  container _ _ hn := hn

theorem pushItem (q : Query) (x : Item) : q.Later (q.pushItem x) where
  items := by
    rw [Query.pushItem,Arena.next_push]
    exact Nat.le_succ _
  containers := Nat.le_refl _
  item j hj hn := by
    rw [item?_pushItem,if_neg fun he => Nat.lt_irrefl _ (he ▸ hj),hn]
  container _ _ hn := hn

theorem mapContainer (q : Query) (c : ContainerId) (f : Container → Container) :
    q.Later (q.mapContainer c f) where
  items := Nat.le_refl _
  containers := Nat.le_of_eq (Arena.next_modify _ _ _).symm
  item _ _ hn := hn
  container d _ hn := by
    rw [container?_mapContainer,hn]
    split <;> rfl

theorem dropContainer (q : Query) (c : ContainerId) : q.Later (q.dropContainer c) where
  items := Nat.le_refl _
  containers := Nat.le_of_eq (Arena.next_erase _ _).symm
  item _ _ hn := hn
  container d _ hn := by
    rw [container?_dropContainer,hn]
    split <;> rfl

theorem pushContainer (q : Query) (C : Container) : q.Later (q.pushContainer C) where
  items := Nat.le_refl _
  containers := by
    rw [Query.pushContainer,Arena.next_push]
    exact Nat.le_succ _
  item _ _ hn := hn
  container d hd hn := by
    rw [container?_pushContainer,if_neg fun he => Nat.lt_irrefl _ (he ▸ hd),hn]

theorem foldl {α : Type} {g : Query → α → Query} (hg : ∀ q a, Later q (g q a)) (as : List α)
    (q : Query) : q.Later (as.foldl g q) := by
  induction as generalizing q with
  | nil => exact .refl q
  | cons a as ih => exact (hg q a).trans (ih (g q a))

theorem mapEndVertices (ends : EdgeEnds) (f : Item → Item) (q : Query) :
    q.Later (Query.mapEndVertices ends f q) :=
  .foldl (fun q v => .mapItem q v f) _ q

theorem moveEdges (old new : ItemId) (es : List ItemId) (q : Query) :
    q.Later (es.foldl (moveEdge old new) q) :=
  .foldl (fun q _ => (mapItem q _ _).trans (.mapItem _ _ _)) es q

theorem withoutEdge (q : Query) (c : ContainerId) (e : ItemId) (ends : EdgeEnds) :
    q.Later (q.withoutEdge c e ends) :=
  (mapContainer q c _).trans ((mapEndVertices ends _ _).trans (.dropItem _ e))

theorem withoutVertex (q : Query) (c : ContainerId) (v : ItemId) :
    q.Later (q.withoutVertex c v) :=
  (mapContainer q c _).trans (.dropItem _ v)

theorem withoutSubquery (q : Query) (p s : ContainerId) : q.Later (q.withoutSubquery p s) :=
  (mapContainer q p _).trans (.dropContainer _ s)

end Later

theorem after_of_refuses {e : Edit} {q : Query} (h : Refuses e.run q) : e.after q = q := by
  obtain ⟨err,h⟩ := h
  rw [Edit.after,h]

theorem after_of_ok {e : Edit} {q q' : Query} (h : e.run q = .ok () q') : e.after q = q' := by
  rw [Edit.after,h]

theorem ignored_ok {α : Type} {x : QueryEdit α} {q q' : Query} {a : α} (h : x q = .ok a q') :
    (do let _ ← x : QueryEdit Unit) q = .ok () q' :=
  (bind_of_ok h _).trans rfl

theorem ignored_refuses {α : Type} {x : QueryEdit α} {q : Query} (h : Refuses x q) :
    Refuses (do let _ ← x : QueryEdit Unit) q := by
  obtain ⟨err,h⟩ := h
  exact ⟨err,bind_of_error h _⟩

/-- An edit of a well-formed query is refused and changes nothing, or it leads to a well-formed
query that comes later. -/
theorem WellFormed.run_cases {q : Query} (h : q.WellFormed) (e : Edit) : Refuses e.run q ∨
    ∃ q', e.run q = .ok () q' ∧ q'.WellFormed ∧ q.Later q' := by
  cases e with
  | addVertex c v =>
    obtain ⟨v,hv⟩ := v
    have hd := hv.detached
    rcases addVertex_cases q c v with hr|⟨C,he,ho,hc,hf⟩
    · exact .inl (ignored_refuses hr)
    · exact .inr ⟨_,ignored_ok (addVertex_ok he ho hc hf),h.withVertex he hd.named hc hf,
        (Later.pushItem q _).trans (.mapContainer _ c _)⟩
  | addEdge c e =>
    obtain ⟨e,he⟩ := e
    have hd := he.detached
    rcases addEdge_cases q c e with hr|⟨ends,C,hends,ho,hc,hf⟩
    · exact .inl (ignored_refuses hr)
    · exact .inr ⟨_,ignored_ok (addEdge_ok hends ho hc hf),h.withEdge hends hd.named hc hf,
        (Later.pushItem q _).trans ((Later.mapEndVertices _ _ _).trans (.mapContainer _ c _))⟩
  | addSubquery p bounds =>
    rcases addSubquery_cases q p bounds with hr|⟨P,hp⟩
    · exact .inl (ignored_refuses hr)
    · exact .inr ⟨_,ignored_ok (addSubquery_ok hp bounds),h.withSubquery hp bounds,
        (Later.pushContainer q _).trans (.mapContainer _ p _)⟩
  | addConstraint c k =>
    rcases addConstraint_cases q c k with hr|⟨C,hc⟩
    · exact .inl hr
    · exact .inr ⟨_,addConstraint_ok hc k,h.mapContainer fun _ _ => ⟨rfl,rfl,rfl⟩,
        .mapContainer q c _⟩
  | addDerivedLink c l =>
    rcases addDerivedLink_cases q c l with hr|⟨C,hc⟩
    · exact .inl hr
    · exact .inr ⟨_,addDerivedLink_ok hc l,h.mapContainer fun _ _ => ⟨rfl,rfl,rfl⟩,
        .mapContainer q c _⟩
  | addCachedItem c item source =>
    rcases addCachedItem_cases q c item source with hr|⟨C,hi,hc,hn⟩
    · exact .inl hr
    · exact .inr ⟨_,addCachedItem_ok hi hc hn,h.mapContainer fun _ _ => ⟨rfl,rfl,rfl⟩,
        .mapContainer q c _⟩
  | removeEdge e =>
    rcases removeEdge_cases h e with hr|⟨x,ends,c,hx,he,hc⟩
    · exact .inl (ignored_refuses hr)
    · exact .inr ⟨_,ignored_ok (removeEdge_ok h hx he hc),h.withoutEdge hx he hc,
        .withoutEdge q c e ends⟩
  | removeVertex v =>
    rcases removeVertex_cases h v with hr|⟨x,c,hx,he,hc⟩
    · exact .inl (ignored_refuses hr)
    · exact .inr ⟨_,ignored_ok (removeVertex_ok h hx he hc),h.withoutVertex hx he hc,
        .withoutVertex q c v⟩
  | removeSubquery s =>
    rcases removeSubquery_cases q s with hr|⟨S,p,hs,hp,he⟩
    · exact .inl (ignored_refuses hr)
    · exact .inr ⟨_,ignored_ok (removeSubquery_ok h hs hp he),h.withoutSubquery hs hp he,
        .withoutSubquery q p s⟩
  | removeConstraint k =>
    rcases removeConstraint_cases q k with ⟨hr,-⟩|⟨c,C,found,rest,hC,-,hq⟩
    · exact .inl (ignored_refuses hr)
    · exact .inr ⟨_,ignored_ok hq,h.putContainer hC ⟨rfl,rfl,rfl⟩,.mapContainer q c _⟩
  | removeDerivedLink l =>
    rcases removeDerivedLink_cases q l with hr|⟨c,C,found,rest,hC,-,hq⟩
    · exact .inl (ignored_refuses hr)
    · exact .inr ⟨_,ignored_ok hq,h.putContainer hC ⟨rfl,rfl,rfl⟩,.mapContainer q c _⟩
  | removeCachedItem item =>
    rcases removeCachedItem_cases q item with hr|⟨c,C,source,hC,-,hq⟩
    · exact .inl (ignored_refuses hr)
    · exact .inr ⟨_,ignored_ok hq,h.putContainer hC ⟨rfl,rfl,rfl⟩,.mapContainer q c _⟩
  | replaceVertex i v =>
    obtain ⟨v,hv⟩ := v
    have hd := hv.detached
    rcases replaceVertex_cases h i v with hr|⟨x,edges,c,hvv,ho,hx,he,hc,hf⟩
    · exact .inl (ignored_refuses hr)
    · exact .inr ⟨_,ignored_ok (replaceVertex_ok h hvv ho hx he hc hf),
        h.withReplaced (hd.edges hvv) hd.named hx he hc hf,
        (Later.dropItem q i).trans ((Later.pushItem _ _).trans
          ((Later.mapContainer _ c _).trans (.moveEdges i _ edges _)))⟩
  | absorb e old =>
    rcases absorb_cases h e old with hr|⟨new,x,u,w,ends,edges,c,d,ha⟩
    · exact .inl hr
    · exact .inr ⟨_,absorb_ok h ha,h.withAbsorbed ha,
        (Later.withoutEdge q c e ends).trans ((Later.moveEdges old new _ _).trans
          ((Later.foldl (fun p _ => .mapItem p old _) _ _).trans (.withoutVertex _ d old)))⟩
  | addNames i names =>
    rcases addNames_cases q i names with hr|⟨x,candidate,y,hn,hf,hx,hy⟩
    · exact .inl hr
    · exact .inr ⟨_,addNames_ok hn hf hx hy,h.withNames hn hf hx hy,.mapItem q i _⟩
  | flatten s =>
    rcases flatten_cases q s with hr|⟨S,p,hs,hp⟩
    · exact .inl hr
    · exact .inr ⟨_,flatten_ok h hs hp,h.flattened hs hp,
        (Later.mapContainer q s _).trans ((Later.foldl (fun p _ => .mapItem p _ _) _ _).trans
          ((Later.foldl (fun p _ => .mapContainer p _ _) _ _).trans
            ((Later.mapContainer _ p _).trans (.withoutSubquery _ p s))))⟩
  | setBounds i bounds =>
    rcases setBounds_cases q i bounds with hr|⟨x,hx⟩
    · exact .inl hr
    · exact .inr ⟨_,setBounds_ok hx bounds,h.mapItem fun _ _ => ⟨rfl,rfl,rfl⟩,.mapItem q i _⟩
  | setProvenance i marker =>
    rcases setProvenance_cases q i marker with hr|⟨x,y,hx,hy⟩
    · exact .inl hr
    · refine .inr ⟨_,setProvenance_ok hx hy,h.mapItem fun z hz => ?_,.mapItem q i _⟩
      obtain ⟨-,rfl⟩ := withProvenance_eq_ok.mp hy
      rw [hx] at hz
      cases hz
      exact ⟨rfl,rfl,rfl⟩

/-- One edit keeps a query well formed and leads to a later one. -/
theorem WellFormed.after {q : Query} (h : q.WellFormed) (e : Edit) :
    (e.after q).WellFormed ∧ q.Later (e.after q) := by
  rcases h.run_cases e with hr|⟨q',hq,hwf,hl⟩
  · rw [after_of_refuses hr]
    exact ⟨h,.refl q⟩
  · rw [after_of_ok hq]
    exact ⟨hwf,hl⟩

/-- A history of edits keeps a query well formed and leads to a later one. -/
theorem WellFormed.edited {q : Query} (h : q.WellFormed) (es : List Edit) :
    (q.edited es).WellFormed ∧ q.Later (q.edited es) := by
  induction es generalizing q with
  | nil => exact ⟨h,.refl q⟩
  | cons e es ih =>
    obtain ⟨hwf,hl⟩ := h.after e
    obtain ⟨hwf',hl'⟩ := ih hwf
    exact ⟨hwf',hl.trans hl'⟩

theorem container?_bare {name description : String} {c : ContainerId} {C : Container}
    (hC : (bare name description).container? c = some C) :
    c = .root ∧ C = Container.bare .query := by
  obtain ⟨_|_⟩ := c
  · cases hC
    exact ⟨rfl,rfl⟩
  · cases hC

/-- A query with nothing but its root is well formed. -/
theorem wellFormed_bare (name description : String) : (bare name description).WellFormed := by
  have hitem : ∀ i, (bare name description).item? i = none := fun i => rfl
  have hcont : ∀ {c C}, (bare name description).container? c = some C →
      c = .root ∧ C = Container.bare .query := container?_bare
  constructor
  · constructor
    · intro c C b i hC hi
      obtain ⟨-,rfl⟩ := hcont hC
      cases b <;> cases hi
    · intro c C b hC
      obtain ⟨-,rfl⟩ := hcont hC
      cases b <;> exact List.nodup_nil
    · intro i x hx
      rw [hitem] at hx
      cases hx
  · constructor
    · exact ⟨_,rfl,rfl⟩
    · intro p P c hP hm
      obtain ⟨-,rfl⟩ := hcont hP
      cases hm
    · intro p P hP
      obtain ⟨-,rfl⟩ := hcont hP
      exact List.nodup_nil
    · intro c C hC hne
      exact absurd (hcont hC).1 hne
    · intro p P c hP hm
      obtain ⟨-,rfl⟩ := hcont hP
      cases hm
  · constructor
    · intro i x hx
      rw [hitem] at hx
      cases hx
    · intro i j x y n hx
      rw [hitem] at hx
      cases hx
  · constructor
    · intro v x edges e hx
      rw [hitem] at hx
      cases hx
    · intro v x edges hx
      rw [hitem] at hx
      cases hx
    · intro e y v hy
      rw [hitem] at hy
      cases hy

/-- Whatever edits are made of a new query, in whatever order and whether they succeed or not, it is
well formed, its live containers are those below the root, and a number that was in use and is free
now stays free under all further edits. -/
theorem edited_bare_sound (name description : String) (before between after : List Edit) :
    let q := (bare name description).edited before
    q.WellFormed ∧
    (∀ c, (q.container? c).isSome = true ↔ Relation.ReflTransGen q.Holds .root c) ∧
    (∀ i, (q.item? i).isSome = true → (q.edited between).item? i = none →
      ((q.edited between).edited after).item? i = none) ∧
    (∀ c, (q.container? c).isSome = true → (q.edited between).container? c = none →
      ((q.edited between).edited after).container? c = none) := by
  intro q
  have hq : q.WellFormed := ((wellFormed_bare name description).edited before).1
  obtain ⟨hq',hl⟩ := hq.edited between
  obtain ⟨-,hl'⟩ := hq'.edited after
  refine ⟨hq,fun c => ⟨fun hc => ?_,fun hc => ?_⟩,fun i hi hn => ?_,fun c hc hn => ?_⟩
  · obtain ⟨C,hC⟩ := Option.isSome_iff_exists.mp hc
    exact hq.nested.reachable hC
  · obtain ⟨R,hR,-⟩ := hq.nested.root
    exact hq.nested.live_of_reachable hc (by rw [hR]; rfl)
  · obtain ⟨x,hx⟩ := Option.isSome_iff_exists.mp hi
    exact hl'.item i (Nat.lt_of_lt_of_le (index_lt_of_item? hx) hl.items) hn
  · obtain ⟨C,hC⟩ := Option.isSome_iff_exists.mp hc
    exact hl'.container c (Nat.lt_of_lt_of_le (index_lt_of_container? hC) hl.containers) hn

end Query

end GraphPattern
