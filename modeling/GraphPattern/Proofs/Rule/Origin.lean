import GraphPattern.Proofs.Rule.Applied

/-!
# Where a query comes from

A query that reductions have led to remembers the one that they set out from: plain vertices and
edges are those that were there, a vertex lies in a subquery exactly if the vertices whose names it
has did, and an end of an edge is annotated exactly if something that was annotated has been reduced
to it, a vertex or a subquery that the other end was not in.
-/

namespace GraphPattern

open Relation

theorem Item.isVertex_iff_kind {x : Item} : x.isVertex = true ↔ x.kind ≠ .edge := by
  rw [Ne,Item.kind_edge_iff,← Item.not_isVertex_iff,Bool.not_eq_false]

/-- A vertex at an end of an edge with the name written for it, and the name and the vertex at the
other end. -/
inductive EdgeEnds.Side (ends : EdgeEnds) : ItemId → String → String → Option ItemId → Prop
  /-- The first end. -/
  | source {v : ItemId} (h : ends.source = some v) :
    Side ends v ends.sourceName ends.targetName ends.target
  /-- The second end. -/
  | target {v : ItemId} (h : ends.target = some v) :
    Side ends v ends.targetName ends.sourceName ends.source

/-- The sides after some vertices were merged into one. -/
theorem EdgeEnds.Side.of_follow {ends : EdgeEnds} {items : List ItemId} {out v : ItemId}
    {n m : String} {u : Option ItemId} (h : (ends.follow items out).Side v n m u) :
    ∃ v₀ u₀, ends.Side v₀ n m u₀ ∧ v = (if v₀ ∈ items then out else v₀) ∧
      u = u₀.map fun i => if i ∈ items then out else i := by
  cases h with
  | source h =>
    obtain ⟨v₀,hv₀,rfl⟩ := Option.map_eq_some_iff.mp h
    exact ⟨v₀,_,.source hv₀,rfl,rfl⟩
  | target h =>
    obtain ⟨v₀,hv₀,rfl⟩ := Option.map_eq_some_iff.mp h
    exact ⟨v₀,_,.target hv₀,rfl,rfl⟩

/-- An edge seen from its other end. -/
theorem EdgeEnds.Side.flip {ends : EdgeEnds} {v u : ItemId} {n m : String}
    (h : ends.Side v n m (some u)) : ends.Side u m n (some v) := by
  generalize ho : some u = o at h
  cases h with
  | source h => exact h ▸ .target ho.symm
  | target h => exact h ▸ .source ho.symm

theorem EdgeEnds.Side.touches {ends : EdgeEnds} {v : ItemId} {n m : String} {u : Option ItemId}
    (h : ends.Side v n m u) : ends.Touches v := by
  cases h with
  | source h => exact .inl h
  | target h => exact .inr h

/-- The sides of the opposite ends of an edge. -/
theorem EdgeEnds.side_of_opposite {ends : EdgeEnds} {old new : ItemId}
    (h : ends.opposite? old = some new) :
    ∃ n m, ends.Side old n m (some new) ∧ ends.Side new m n (some old) ∧
      ((n = ends.sourceName ∧ m = ends.targetName) ∨ (n = ends.targetName ∧ m = ends.sourceName)) := by
  rcases EdgeEnds.opposite?_eq_some h with ⟨hs,ht⟩|⟨hs,ht⟩
  · exact ⟨_,_,ht ▸ .source hs,hs ▸ .target ht,.inl ⟨rfl,rfl⟩⟩
  · exact ⟨_,_,hs ▸ .target ht,ht ▸ .source hs,.inr ⟨rfl,rfl⟩⟩

namespace Query

variable {q₀ q q' : Query} {n m : String} {b : Annotation} {s : ContainerId}

/-- The name of a vertex. -/
def Known (q : Query) (n : String) : Prop :=
  ∃ i x, q.item? i = some x ∧ x.isVertex = true ∧ n ∈ x.names

/-- The vertex with the name lies in the container or in one below it. -/
def Inside (q : Query) (n : String) (s : ContainerId) : Prop :=
  ∃ i x c, q.item? i = some x ∧ x.isVertex = true ∧ n ∈ x.names ∧ x.container = some c ∧
    ReflTransGen q.Holds s c

/-- Between vertices of the two names, the first one brings the annotation along: it is annotated
itself, or a subquery that it lies in and the other one does not. Only subqueries with the given
property count. -/
def Brings (q : Query) (P : ContainerId → Prop) (n m : String) (b : Annotation) : Prop :=
  (∃ i x, q.item? i = some x ∧ x.isVertex = true ∧ n ∈ x.names ∧ x.bounds = some b) ∨
    ∃ s S, q.container? s = some S ∧ S.bounds = some b ∧ q.Inside n s ∧ ¬q.Inside m s ∧ P s

theorem Brings.imp {P P' : ContainerId → Prop} (h : q.Brings P n m b) (hP : ∀ s, P s → P' s) :
    q.Brings P' n m b :=
  Or.imp id (fun ⟨s,S,hS,hb,hn,hm,hp⟩ => ⟨s,S,hS,hb,hn,hm,hP s hp⟩) h

/-- The first query is one that reductions have led from to the second one. -/
structure Traced (q₀ q : Query) : Prop where
  /-- Names are unique at the start. -/
  named : q₀.Named
  /-- Plain vertices are old ones. -/
  plain : ∀ {i x}, q.item? i = some x → x.kind = .vertex →
    ∃ j x₀, q₀.item? j = some x₀ ∧ x₀.names = x.names ∧ x₀.bounds = x.bounds
  /-- Edges are old ones. -/
  edge : ∀ {e y ends}, q.item? e = some y → y.ends? = some ends → ∃ j y₀ ends₀,
    q₀.item? j = some y₀ ∧ y₀.ends? = some ends₀ ∧ y₀.names = y.names ∧
      ends₀.sourceName = ends.sourceName ∧ ends₀.targetName = ends.targetName
  /-- The names written for ends are names of old vertices. -/
  known : ∀ {e y ends v n m u}, q.item? e = some y → y.ends? = some ends → ends.Side v n m u →
    q₀.Known n
  /-- Containers are old ones. -/
  container : ∀ {s S}, q.container? s = some S →
    ∃ S₀, q₀.container? s = some S₀ ∧ S₀.bounds = S.bounds
  /-- A vertex lies where the vertices did whose names it has. -/
  inside : ∀ {s S i x n c}, q.container? s = some S → q.item? i = some x → x.isVertex = true →
    n ∈ x.names → q₀.Known n → x.container = some c →
      (ReflTransGen q.Holds s c ↔ q₀.Inside n s)
  /-- What was brought to an end is the annotation there. -/
  brought : ∀ {e y ends v n m u x b}, q.item? e = some y → y.ends? = some ends →
    ends.Side v n m u → q.item? v = some x →
      q₀.Brings (fun s => q.container? s = none) n m b → x.bounds = some b
  /-- The annotation of an end was brought there. -/
  brings : ∀ {e y ends v n m u x b}, q.item? e = some y → y.ends? = some ends →
    ends.Side v n m (some u) → u ≠ v → q.item? v = some x → x.bounds = some b →
      q₀.Brings (fun s => q.container? s = none) n m b

/-- The name written for an end is a name of the vertex there. -/
theorem Reducible.side (h : q.Reducible) {e v : ItemId} {y : Item} {ends : EdgeEnds}
    {u : Option ItemId} (hy : q.item? e = some y) (he : y.ends? = some ends)
    (hs : ends.Side v n m u) : ∃ x, q.item? v = some x ∧ n ∈ x.names ∧ x.isVertex = true := by
  obtain ⟨x,hx,hv⟩ := h.wellFormed.incident.ended hy ⟨ends,he,hs.touches⟩
  refine ⟨x,hx,?_,hv⟩
  cases hs with
  | source hs =>
    obtain ⟨x',hx',hn⟩ := h.source hy he hs
    rw [hx] at hx'
    cases hx'
    exact hn
  | target hs =>
    obtain ⟨x',hx',hn⟩ := h.target hy he hs
    rw [hx] at hx'
    cases hx'
    exact hn

/-- At the start everything is where it was. -/
theorem Reducible.traced (h : q.Reducible) : q.Traced q where
  named := h.wellFormed.named
  plain hx _ := ⟨_,_,hx,rfl,rfl⟩
  edge hy he := ⟨_,_,_,hy,he,rfl,rfl,rfl⟩
  known hy he hs := by
    obtain ⟨x,hx,hn,hv⟩ := h.side hy he hs
    exact ⟨_,x,hx,hv,hn⟩
  container hS := ⟨_,hS,rfl⟩
  inside {s S i x n c} _ hx hv hn _ hc := by
    constructor
    · exact fun hsc => ⟨i,x,c,hx,hv,hn,hc,hsc⟩
    · rintro ⟨j,y,d,hy,-,hm,hd,hsd⟩
      cases h.wellFormed.named.disjoint hx hy hn hm
      rw [hx] at hy
      cases hy
      rw [hc] at hd
      cases hd
      exact hsd
  brought {e y ends v n m u x b} hy he hs hx hb := by
    obtain ⟨x',hx',hn,-⟩ := h.side hy he hs
    rw [hx] at hx'
    cases hx'
    rcases hb with ⟨i,z,hz,-,hm,hzb⟩|⟨s,S,hS,-,-,-,hnone⟩
    · cases h.wellFormed.named.disjoint hx hz hn hm
      rw [hx] at hz
      cases hz
      exact hzb
    · rw [hS] at hnone
      cases hnone
  brings {e y ends v n m u x b} hy he hs _ hx hb := by
    obtain ⟨x',hx',hn,hv⟩ := h.side hy he hs
    rw [hx] at hx'
    cases hx'
    exact .inl ⟨v,x,hx,hv,hn,hb⟩

/-- An item with the name of an old vertex is a vertex. -/
theorem Traced.isVertex (h : q₀.Traced q) {i : ItemId} {x : Item} (hx : q.item? i = some x)
    (hn : n ∈ x.names) (hk : q₀.Known n) : x.isVertex = true := by
  cases hv : x.isVertex with
  | true => rfl
  | false =>
    obtain ⟨ends,he⟩ := Item.not_isVertex_iff.mp hv
    obtain ⟨j,y,ends₀,hy,hye,hnames,-⟩ := h.edge hx he
    obtain ⟨k,z,hz,hzv,hm⟩ := hk
    cases h.named.disjoint hy hz (hnames ▸ hn) hm
    rw [hy] at hz
    cases hz
    rw [Item.not_isVertex_iff.mpr ⟨ends₀,hye⟩] at hzv
    cases hzv

/-- Between ends in the same container everything that can be brought has been brought. -/
theorem Traced.brought_together (h : q₀.Traced q) (hq : q.Reducible) {e v u : ItemId} {y x w : Item}
    {ends : EdgeEnds} (hy : q.item? e = some y) (he : y.ends? = some ends)
    (hs : ends.Side v n m (some u)) (hs' : ends.Side u m n (some v)) (hx : q.item? v = some x)
    (hw : q.item? u = some w) (hc : x.container = w.container)
    (hb : q₀.Brings (fun _ => True) n m b) : x.bounds = some b := by
  refine h.brought hy he hs hx ?_
  rcases hb with hb|⟨s,S,hS,hSb,hn,hm,-⟩
  · exact .inl hb
  · refine .inr ⟨s,S,hS,hSb,hn,hm,?_⟩
    cases hlive : q.container? s with
    | none => exact hlive
    | some S' =>
      -- Both ends would lie in the subquery, or none of them.
      obtain ⟨x',hx',hnx,hxv⟩ := hq.side hy he hs
      obtain ⟨w',hw',hmw,hwv⟩ := hq.side hy he hs'
      rw [hx] at hx'
      cases hx'
      rw [hw] at hw'
      cases hw'
      obtain ⟨c,C,hxc,-⟩ := hq.wellFormed.owned.owner hx
      have hin := (h.inside hlive hx hxv hnx (h.known hy he hs) hxc).mpr hn
      exact absurd ((h.inside hlive hw hwv hmw (h.known hy he hs') (hc ▸ hxc)).mp hin) hm

end Query

namespace Rule

open Query

variable {q₀ q q' : Query} {items : List ItemId} {out : ItemId}

/-- A change that leaves the containers and the owners of items as they are. What comes out is not
annotated, and neither is anything at which another edge ends. -/
structure Level (q q' : Query) (items : List ItemId) (out : ItemId) : Prop where
  /-- Containers keep their annotations and their subqueries. -/
  container : ∀ s, (q'.container? s).map (fun C => (C.bounds,C.subqueries)) =
    (q.container? s).map fun C => (C.bounds,C.subqueries)
  /-- Other items keep their owners. -/
  other : ∀ {j y x}, j ∉ items → q'.item? j = some y → q.item? j = some x →
    y.container = x.container
  /-- What comes out has the owner of the vertices that went into it. -/
  owner : ∀ {y i x}, q'.item? out = some y → i ∈ items → q.item? i = some x → x.isVertex = true →
    y.container = x.container
  /-- What comes out is not annotated. -/
  bare : ∀ {y}, q'.item? out = some y → y.bounds = none
  /-- Neither is a vertex that went into it, if another edge ends there. -/
  free : ∀ {i x j z}, i ∈ items → q.item? i = some x → j ∉ items → q.item? j = some z →
    z.Touches i → x.bounds = none

theorem Level.holds (hl : Level q q' items out) : q'.Holds = q.Holds := by
  funext p c
  refine propext ⟨?_,?_⟩
  · rintro ⟨P,hP,hm⟩
    obtain ⟨P',hP',he⟩ := exists_of_map_eq (hl.container p) hP
    exact ⟨P',hP',(Prod.mk.inj he).2 ▸ hm⟩
  · rintro ⟨P,hP,hm⟩
    obtain ⟨P',hP',he⟩ := exists_of_map_eq (hl.container p).symm hP
    exact ⟨P',hP',(Prod.mk.inj he).2 ▸ hm⟩

theorem Level.live (hl : Level q q' items out) {s : ContainerId} :
    q'.container? s = none ↔ q.container? s = none := by
  have hs := congrArg Option.isNone (hl.container s)
  rw [Option.isNone_map,Option.isNone_map] at hs
  rw [← Option.isNone_iff_eq_none,← Option.isNone_iff_eq_none,hs]

/-- An end of another edge has the annotation that it had. -/
theorem Level.bounds_end (hl : Level q q' items out) (hc : Changes q q' items out)
    (hq : q.Reducible) {e v : ItemId} {y x : Item} {ends : EdgeEnds} {n m : String}
    {u : Option ItemId} (he : e ∉ items) (hy : q.item? e = some y) (hends : y.ends? = some ends)
    (hs : ends.Side v n m u) (hx : q'.item? (if v ∈ items then out else v) = some x) :
    ∃ x₀, q.item? v = some x₀ ∧ x.bounds = x₀.bounds := by
  obtain ⟨x₀,hx₀,-⟩ := hq.side hy hends hs
  refine ⟨x₀,hx₀,?_⟩
  by_cases hv : v ∈ items
  · rw [if_pos hv] at hx
    rw [hl.bare hx,hl.free hv hx₀ he hy ⟨ends,hends,hs.touches⟩]
  · rw [if_neg hv] at hx
    obtain ⟨-,x',hx',hf⟩ := hc.forth hx₀ hv
    rw [hx] at hx'
    cases hx'
    exact hf.bounds

/-- A vertex lies where the vertices did that went into it. -/
theorem Level.inside (hl : Level q q' items out) (hc : Changes q q' items out) (h : q₀.Traced q)
    {s c : ContainerId} {S : Container} {i : ItemId} {x : Item} {n : String}
    (hS : q'.container? s = some S) (hx : q'.item? i = some x) (hv : x.isVertex = true)
    (hn : n ∈ x.names) (hk : q₀.Known n) (hxc : x.container = some c) :
    ReflTransGen q'.Holds s c ↔ q₀.Inside n s := by
  obtain ⟨S',hS',-⟩ := exists_of_map_eq (hl.container s) hS
  rw [hl.holds]
  by_cases hi : i = out
  · cases hi
    obtain ⟨y,hy,-,hnames⟩ := hc.out
    rw [hx] at hy
    cases hy
    -- The name is that of a vertex that went into what came out.
    obtain ⟨j,hj,x₀,hx₀,hn₀⟩ := (hnames n).mp hn
    have hv₀ := h.isVertex hx₀ hn₀ hk
    exact h.inside hS' hx₀ hv₀ hn₀ hk (hl.owner hx hj hx₀ hv₀ ▸ hxc)
  · obtain ⟨hm,x₀,hx₀,hf⟩ := hc.back hx hi
    have hv₀ : x₀.isVertex = true :=
      Item.isVertex_iff_kind.mpr (hf.kind ▸ Item.isVertex_iff_kind.mp hv)
    exact h.inside hS' hx₀ hv₀ (hf.names ▸ hn) hk (hl.other hm hx hx₀ ▸ hxc)

/-- A query keeps its origin under such a change. -/
theorem Level.traced (hl : Level q q' items out) (hc : Changes q q' items out)
    (h : q₀.Traced q) (hq : q.Reducible) : q₀.Traced q' := by
  have hlive : (fun s => q'.container? s = none) = fun s => q.container? s = none :=
    funext fun s => propext hl.live
  refine ⟨h.named,?_,?_,?_,?_,hl.inside hc h,?_,?_⟩
  · intro i x hx hk
    obtain ⟨-,x₀,hx₀,hf⟩ := hc.back hx (hc.not_vertex hx (by rw [hk]; nofun))
    obtain ⟨j,z,hz,hn,hb⟩ := h.plain hx₀ (hf.kind ▸ hk)
    exact ⟨j,z,hz,hn.trans hf.names.symm,hb.trans hf.bounds.symm⟩
  · intro e y ends hy he
    obtain ⟨-,y₀,ends₀,hy₀,he₀,rfl,hf⟩ := hc.edge_back hy he
    obtain ⟨j,z,ends',hz,hze,hzn,hs,ht⟩ := h.edge hy₀ he₀
    exact ⟨j,z,ends',hz,hze,hzn.trans hf.names.symm,hs,ht⟩
  · intro e y ends v n m u hy he hs
    obtain ⟨-,y₀,ends₀,hy₀,he₀,rfl,-⟩ := hc.edge_back hy he
    obtain ⟨v₀,u₀,hs₀,-⟩ := hs.of_follow
    exact h.known hy₀ he₀ hs₀
  · intro s S hS
    obtain ⟨S',hS',he⟩ := exists_of_map_eq (hl.container s) hS
    obtain ⟨S₀,hS₀,hb⟩ := h.container hS'
    exact ⟨S₀,hS₀,hb.trans (Prod.mk.inj he).1⟩
  · intro e y ends v n m u x b hy he hs hx hb
    obtain ⟨hm,y₀,ends₀,hy₀,he₀,rfl,-⟩ := hc.edge_back hy he
    obtain ⟨v₀,u₀,hs₀,rfl,-⟩ := hs.of_follow
    obtain ⟨x₀,hx₀,hbounds⟩ := hl.bounds_end hc hq hm hy₀ he₀ hs₀ hx
    rw [hbounds]
    exact h.brought hy₀ he₀ hs₀ hx₀ (hlive ▸ hb)
  · intro e y ends v n m u x b hy he hs hne hx hb
    obtain ⟨hm,y₀,ends₀,hy₀,he₀,rfl,-⟩ := hc.edge_back hy he
    obtain ⟨v₀,u₀,hs₀,rfl,hu⟩ := hs.of_follow
    obtain ⟨u₁,rfl,hu₁⟩ := Option.map_eq_some_iff.mp hu.symm
    obtain ⟨x₀,hx₀,hbounds⟩ := hl.bounds_end hc hq hm hy₀ he₀ hs₀ hx
    rw [hlive]
    refine h.brings hy₀ he₀ hs₀ (fun he => hne ?_) hx₀ (hbounds ▸ hb)
    rw [← hu₁,he]

/-! ## Level reductions -/

theorem level_withReplaced (h : q.WellFormed) {v : ItemId} {x new : Item} {edges : List ItemId}
    {c : ContainerId} (hx : q.item? v = some x) (he : x.edges? = some edges)
    (hc : x.container = some c) (hb : x.bounds = none) (hn : new.bounds = none) :
    Level q (q.withReplaced c v edges new) [v] q.nextItem := by
  obtain ⟨-,hnew,hother⟩ := item?_withReplaced h c new hx he
  have hsame := sameButIncidence_foldl_attach edges { new with container := some c }
  constructor
  · intro s
    rw [container?_withReplaced]
    split
    · rw [Option.map_map]
      rfl
    · rfl
  · intro j y z hj hy hz
    have hjn := ne_nextItem hz
    rw [hother j (fun hjv => hj (hjv ▸ List.mem_singleton_self v)) hjn,hz,Option.map_some] at hy
    cases hy
    exact (Item.sameButIncidence_mapEnds _ z).container
  · intro y i z hy hi hz _
    rw [List.mem_singleton.mp hi,hx] at hz
    rw [hnew] at hy
    cases hz
    cases hy
    exact hsame.container.trans hc.symm
  · intro y hy
    rw [hnew] at hy
    cases hy
    exact hsame.bounds.trans hn
  · intro i z j w hi hz _ _ _
    rw [List.mem_singleton.mp hi,hx] at hz
    cases hz
    exact hb

theorem level_withoutEdge (h : q.WellFormed) {v e : ItemId} {x y : Item} {ends : EdgeEnds}
    {c : ContainerId} (hx : q.item? v = some x) (hv : x.isVertex = true) (hb : x.bounds = none)
    (hy : q.item? e = some y) (he : y.ends? = some ends) (hc : y.container = some c)
    {f : Item → Item} (hf : ∀ z, (f z).bounds = z.bounds ∧ (f z).container = z.container) :
    Level q ((q.withoutEdge c e ends).mapItem v f) [v,e] v := by
  have hve : v ≠ e := ne_of_ends hy he hx hv
  have hdetach : ∀ j (z : Item), (if ends.Touches j then z.detach e else z).SameButIncidence z := by
    intro j z
    split
    · exact Item.sameButIncidence_detach e z
    · exact .refl z
  have hout : ((q.withoutEdge c e ends).mapItem v f).item? v =
      some (f (if ends.Touches v then x.detach e else x)) := by
    rw [item?_mapItem,if_pos rfl,item?_withoutEdge,if_neg hve,hx]
    rfl
  constructor
  · intro s
    rw [container?_mapItem,container?_withoutEdge h hy hc,Option.map_map]
    rfl
  · intro j z w hj hz hw
    simp only [List.mem_cons,List.not_mem_nil,or_false,not_or] at hj
    rw [item?_mapItem,if_neg hj.1,item?_withoutEdge,if_neg hj.2,hw,Option.map_some] at hz
    cases hz
    exact (hdetach j w).container
  · intro z i w hz hi hw hwv
    rw [hout] at hz
    cases hz
    rcases List.mem_pair.mp hi with rfl|rfl
    · rw [hx] at hw
      cases hw
      exact (hf _).2.trans (hdetach _ x).container
    · rw [hy] at hw
      cases hw
      rw [Item.not_isVertex_iff.mpr ⟨ends,he⟩] at hwv
      cases hwv
  · intro z hz
    rw [hout] at hz
    cases hz
    exact (hf _).1.trans ((hdetach _ x).bounds.trans hb)
  · intro i w j z hi hw _ hz ht
    rcases List.mem_pair.mp hi with rfl|rfl
    · rw [hx] at hw
      cases hw
      exact hb
    · obtain ⟨w',hw',hwv⟩ := h.incident.ended hz ht
      rw [hy] at hw'
      cases hw'
      rw [Item.not_isVertex_iff.mpr ⟨ends,he⟩] at hwv
      cases hwv

theorem level_absorbed (h : q.WellFormed) {e old new : ItemId} {y u w : Item} {ends : EdgeEnds}
    (ha : q.Absorbed q' e old new w) (hy : q.item? e = some y) (he : y.ends? = some ends)
    (hu : q.item? old = some u) (hw : q.item? new = some w) (hb : w.bounds = none)
    (ht : w.container = u.container) (hfree : u.bounds = none ∨ u.edges? = some [e])
    {f : Item → Item} (hf : ∀ z, (f z).bounds = z.bounds ∧ (f z).container = z.container) :
    Level q (q'.mapItem new f) [new,e,old] new := by
  obtain ⟨z,hz,hsame⟩ := ha.kept
  have hnew : (q'.mapItem new f).item? new = some (f z) := by
    rw [item?_mapItem,if_pos rfl,hz]
    rfl
  constructor
  · intro s
    rw [container?_mapItem,ha.container,Option.map_map]
    rfl
  · intro j x x₀ hj hx hx₀
    simp only [List.mem_cons,List.not_mem_nil,or_false,not_or] at hj
    rw [item?_mapItem,if_neg hj.1,ha.other j hj.2.1 hj.2.2 hj.1,hx₀,Option.map_some] at hx
    cases hx
    exact (Item.sameButIncidence_mapEnds _ x₀).container
  · intro x i x₀ hx hi hx₀ hv
    rw [hnew] at hx
    cases hx
    have hkept := (hf z).2.trans hsame.container
    simp only [List.mem_cons,List.not_mem_nil,or_false] at hi
    rcases hi with rfl|rfl|rfl
    · rw [hw] at hx₀
      cases hx₀
      exact hkept
    · rw [hy] at hx₀
      cases hx₀
      rw [Item.not_isVertex_iff.mpr ⟨ends,he⟩] at hv
      cases hv
    · rw [hu] at hx₀
      cases hx₀
      exact hkept.trans ht
  · intro x hx
    rw [hnew] at hx
    cases hx
    exact (hf z).1.trans (hsame.bounds.trans hb)
  · intro i x j g hi hx hj hg htouch
    simp only [List.mem_cons,List.not_mem_nil,or_false] at hi
    rcases hi with rfl|rfl|rfl
    · rw [hw] at hx
      cases hx
      exact hb
    · obtain ⟨x',hx',hv⟩ := h.incident.ended hg htouch
      rw [hy] at hx'
      cases hx'
      rw [Item.not_isVertex_iff.mpr ⟨ends,he⟩] at hv
      cases hv
    · rw [hu] at hx
      cases hx
      rcases hfree with hfree|hfree
      · exact hfree
      · -- Its only edge is gone.
        have hmem := (h.incident.joined hu hfree).mpr ⟨g,hg,htouch⟩
        rw [List.mem_singleton.mp hmem] at hj
        exact absurd (by simp) hj

/-- A change that leaves all owners and annotations as they are. -/
theorem level_of_same {v : ItemId} {x : Item} (hx : q.item? v = some x) (hb : x.bounds = none)
    (hi : ∀ j, (q'.item? j).map (fun z => (z.bounds,z.container)) =
      (q.item? j).map fun z => (z.bounds,z.container))
    (hc : ∀ s, (q'.container? s).map (fun C => (C.bounds,C.subqueries)) =
      (q.container? s).map fun C => (C.bounds,C.subqueries)) : Level q q' [v] v := by
  have hsame : ∀ {j y z}, q'.item? j = some y → q.item? j = some z →
      y.bounds = z.bounds ∧ y.container = z.container := by
    intro j y z hy hz
    have hj := hi j
    rw [hy,hz,Option.map_some,Option.map_some] at hj
    exact Prod.mk.inj (Option.some.inj hj)
  have hlive : ∀ {y}, q'.item? v = some y → y.bounds = x.bounds ∧ y.container = x.container :=
    fun hy => hsame hy hx
  constructor
  · exact hc
  · exact fun _ hy hz => (hsame hy hz).2
  · intro y i z hy hi hz _
    rw [List.mem_singleton.mp hi] at hz
    exact (hsame hy hz).2
  · exact fun hy => (hlive hy).1.trans hb
  · intro i z j w hi hz _ _ _
    rw [List.mem_singleton.mp hi,hx] at hz
    cases hz
    exact hb

/-! ## Lifting a subquery -/

/-- What lifting a subquery leaves that holds nothing but one vertex. -/
structure Lifted (q q' : Query) (v : ItemId) (s p : ContainerId) (S : Container) : Prop where
  /-- The subquery is gone. -/
  gone : q'.container? s = none
  /-- Other containers keep their annotations. -/
  container : ∀ {c C}, q'.container? c = some C →
    c ≠ s ∧ ∃ C₀, q.container? c = some C₀ ∧ C.bounds = C₀.bounds
  /-- Nothing else is gone. -/
  live : ∀ c, c ≠ s → (q'.container? c = none ↔ q.container? c = none)
  /-- Nothing else is nested otherwise. -/
  holds : ∀ a c, q'.Holds a c ↔ q.Holds a c ∧ c ≠ s
  /-- What was in the subquery is in the container around it, and the vertex is annotated as the
  subquery was. -/
  item : ∀ j, q'.item? j = (q.item? j).map fun x =>
    let y := if x.container = some s then { x with container := some p } else x
    if j = v then { y with bounds := S.bounds } else y

section Alone

variable {s p : ContainerId} {S : Container} (h : q.WellFormed) (inner : q.container? s = some S)
  (parent : S.parent? = some p) (alone : S.subqueries = [])

include h inner parent alone

/-- Flattening a subquery without subqueries changes no container but the one around it. -/
theorem container?_flattened_alone (a : ContainerId) :
    ((q.withLifted p s S).withoutSubquery p s).container? a =
      if a = s then none else (q.container? a).map fun C =>
        if a = p then { taking S C with subqueries := C.subqueries.filter (· ≠ s) } else C := by
  obtain ⟨hne,hss,hps⟩ := h.nested.around inner parent
  rw [container?_flattened a hne hss hps]
  simp only [alone,List.append_nil,List.not_mem_nil,if_false]

/-- Nothing but the subquery is nested otherwise. -/
theorem holds_flattened_alone (a c : ContainerId) :
    ((q.withLifted p s S).withoutSubquery p s).Holds a c ↔ q.Holds a c ∧ c ≠ s := by
  constructor
  · rintro ⟨C,hC,hm⟩
    rw [container?_flattened_alone h inner parent alone] at hC
    split at hC
    · cases hC
    · obtain ⟨C₀,hC₀,rfl⟩ := Option.map_eq_some_iff.mp hC
      split at hm
      · obtain ⟨hm,hcs⟩ := List.mem_filter.mp hm
        exact ⟨⟨C₀,hC₀,hm⟩,of_decide_eq_true hcs⟩
      · rename_i hap
        -- The subquery lies in one container only.
        refine ⟨⟨C₀,hC₀,hm⟩,fun hcs => hap ?_⟩
        obtain ⟨P,hP,hsP⟩ := h.nested.listed inner parent
        exact h.nested.holds_unique ⟨C₀,hC₀,hcs ▸ hm⟩ ⟨P,hP,hsP⟩
  · rintro ⟨⟨C₀,hC₀,hm⟩,hcs⟩
    have has : a ≠ s := fun he => by
      rw [he,inner] at hC₀
      cases hC₀
      rw [alone] at hm
      cases hm
    refine ⟨_,by rw [container?_flattened_alone h inner parent alone,if_neg has,hC₀,
      Option.map_some],?_⟩
    split
    · exact List.mem_filter.mpr ⟨hm,decide_eq_true hcs⟩
    · exact hm

theorem lifted_of_alone (v : ItemId) :
    Lifted q (((q.withLifted p s S).withoutSubquery p s).mapItem v fun z =>
      { z with bounds := S.bounds }) v s p S := by
  have hcontainer := container?_flattened_alone h inner parent alone
  refine ⟨(hcontainer s).trans (if_pos rfl),fun {c C} hC => ?_,fun c hcs => ?_,
    fun a c => holds_flattened_alone h inner parent alone a c,fun j => ?_⟩
  · rw [container?_mapItem,hcontainer] at hC
    split at hC
    · cases hC
    · obtain ⟨C₀,hC₀,rfl⟩ := Option.map_eq_some_iff.mp hC
      refine ⟨‹_›,C₀,hC₀,?_⟩
      split <;> rfl
  · rw [container?_mapItem,hcontainer,if_neg hcs,Option.map_eq_none_iff]
  · rw [item?_mapItem,item?_flattened h inner]
    split
    · rw [Option.map_map]
      rfl
    · rfl

end Alone

/-- Beside the subquery that is gone everything lies where it lay. -/
theorem Lifted.below {v : ItemId} {s p : ContainerId} {S : Container} (hl : Lifted q q' v s p S)
    (hempty : ∀ c, ¬q.Holds s c) {a c : ContainerId} (hc : c ≠ s) :
    ReflTransGen q'.Holds a c ↔ ReflTransGen q.Holds a c := by
  constructor
  · exact (ReflTransGen.mono fun x y hxy => ((hl.holds x y).mp hxy).1) a c
  · intro hac
    induction hac with
    | refl => exact .refl
    | @tail x y _ hxy ih =>
      have hx : x ≠ s := fun he => hempty y (he ▸ hxy)
      exact (ih hx).tail ((hl.holds x y).mpr ⟨hxy,hc⟩)

/-- A subquery that holds nothing but a settled vertex is lifted. -/
structure Unwrapped (q q' : Query) (v : ItemId) (x : Item) (s p : ContainerId) (S : Container) :
    Prop extends Lifted q q' v s p S where
  /-- The vertex is live. -/
  vertex : q.item? v = some x
  /-- It owes nothing. -/
  settled : Settled x
  /-- It lies in the subquery. -/
  owner : x.container = some s
  /-- The subquery is live. -/
  inner : q.container? s = some S
  /-- It lies in this container. -/
  parent : S.parent? = some p
  /-- Nothing else lies in it. -/
  alone : S.vertices = [v] ∧ S.edges = [] ∧ S.subqueries = [] ∧ S.constraints = []

namespace Unwrapped

variable {v j e : ItemId} {x y z w : Item} {s p t c : ContainerId} {S T : Container}
  {ends : EdgeEnds} {n m : String} {b : Annotation} (hu : Unwrapped q q' v x s p S)

include hu

/-- An item is an old one, and only the vertex is annotated otherwise. -/
theorem back (hy : q'.item? j = some y) : ∃ z, q.item? j = some z ∧ y.names = z.names ∧
    y.body = z.body ∧ y.bounds = (if j = v then S.bounds else z.bounds) ∧
    y.container = if z.container = some s then some p else z.container := by
  rw [hu.item] at hy
  obtain ⟨z,hz,rfl⟩ := Option.map_eq_some_iff.mp hy
  refine ⟨z,hz,?_⟩
  split <;> split <;> exact ⟨rfl,rfl,rfl,rfl⟩

/-- No subquery lies in the one that is lifted. -/
theorem not_holds (c : ContainerId) : ¬q.Holds s c := by
  rintro ⟨S',hS',hm⟩
  rw [hu.inner] at hS'
  cases hS'
  rw [hu.alone.2.2.1] at hm
  cases hm

/-- Only the vertex lies in it. -/
theorem eq_of_inside (h : q₀.Traced q) (hq : q.Reducible) (hz : q.item? j = some z)
    (hv : z.isVertex = true) (hn : n ∈ z.names) (hk : q₀.Known n) (hin : q₀.Inside n s) :
    j = v := by
  obtain ⟨c,C,hzc,hC,hm⟩ := hq.wellFormed.owned.owner hz
  have hsc := (h.inside hu.inner hz hv hn hk hzc).mpr hin
  rcases ReflTransGen.cases_head hsc with rfl|⟨d,hsd,-⟩
  · rw [hu.inner] at hC
    cases hC
    rw [hv] at hm
    exact List.mem_singleton.mp (hu.alone.1 ▸ hm)
  · exact absurd hsd (hu.not_holds d)

/-- A vertex lies where the vertices did whose names it has. -/
theorem inside (h : q₀.Traced q) (hq : q.Reducible) (hT : q'.container? t = some T)
    (hy : q'.item? j = some y) (hv : y.isVertex = true) (hn : n ∈ y.names) (hk : q₀.Known n)
    (hc : y.container = some c) : ReflTransGen q'.Holds t c ↔ q₀.Inside n t := by
  have hps : p ≠ s := (hq.wellFormed.nested.around hu.inner hu.parent).1
  obtain ⟨P,hP,hsP⟩ := hq.wellFormed.nested.listed hu.inner hu.parent
  obtain ⟨hts,T₀,hT₀,-⟩ := hu.container hT
  obtain ⟨z,hz,hzn,hbody,-,hzc⟩ := hu.back hy
  have hzv : z.isVertex = true := by rw [← hv,Item.isVertex,Item.isVertex,hbody]
  obtain ⟨d,D,hzd,-⟩ := hq.wellFormed.owned.owner hz
  rw [← h.inside hT₀ hz hzv (hzn ▸ hn) hk hzd]
  rw [hc,hzd] at hzc
  by_cases hds : d = s
  · -- From the subquery it has moved to the container around it.
    rw [hds,if_pos rfl] at hzc
    cases hzc
    rw [hu.below hu.not_holds hps,hds]
    constructor
    · exact fun htp => htp.tail ⟨P,hP,hsP⟩
    · intro hs
      rcases ReflTransGen.cases_tail hs with rfl|⟨a,hta,has⟩
      · exact absurd rfl hts
      · rw [← hq.wellFormed.nested.holds_unique has ⟨P,hP,hsP⟩]
        exact hta
  · rw [if_neg fun he => hds (Option.some.inj he)] at hzc
    cases hzc
    exact hu.below hu.not_holds hds

/-- An end of an edge is an old one, and only the vertex is annotated otherwise. -/
theorem side_back {u : Option ItemId} (hq : q.Reducible) (hy : q'.item? e = some y)
    (he : y.ends? = some ends) (hs : ends.Side j n m u) (hw : q'.item? j = some w) :
    ∃ z w₀, q.item? e = some z ∧ z.ends? = some ends ∧ q.item? j = some w₀ ∧ n ∈ w₀.names ∧
      w₀.isVertex = true ∧ w.bounds = if j = v then S.bounds else w₀.bounds := by
  obtain ⟨z,hz,-,hbody,-⟩ := hu.back hy
  rw [Item.ends?,hbody] at he
  obtain ⟨w₀,hw₀,-,-,hwb,-⟩ := hu.back hw
  obtain ⟨w₁,hw₁,hn,hwv⟩ := hq.side hz he hs
  rw [hw₀] at hw₁
  cases hw₁
  exact ⟨z,w₀,hz,he,hw₀,hn,hwv,hwb⟩

/-- What was brought to an end is the annotation there. -/
theorem brought {u : Option ItemId} (h : q₀.Traced q) (hq : q.Reducible)
    (hy : q'.item? e = some y) (he : y.ends? = some ends) (hs : ends.Side j n m u)
    (hw : q'.item? j = some w) (hb : q₀.Brings (fun t => q'.container? t = none) n m b) :
    w.bounds = some b := by
  obtain ⟨S₀,hS₀,hSb⟩ := h.container hu.inner
  obtain ⟨z,w₀,hz,he,hw₀,hn,hwv,hwb⟩ := hu.side_back hq hy he hs hw
  -- The vertex had no annotation, so nothing was brought to it before.
  have hold : q₀.Brings (fun t => q.container? t = none) n m b → w.bounds = some b := by
    intro hb
    have hwb₀ := h.brought hz he hs hw₀ hb
    have hjv : j ≠ v := by
      rintro rfl
      rw [hu.vertex] at hw₀
      cases hw₀
      rw [hu.settled.bounds] at hwb₀
      cases hwb₀
    rw [hwb,if_neg hjv,hwb₀]
  rcases hb with hb|⟨t,T,hT,hTb,hn',hm',hgone⟩
  · exact hold (.inl hb)
  · by_cases hts : t = s
    · rw [hts] at hT hn'
      rw [hS₀] at hT
      cases hT
      rw [hwb,if_pos (hu.eq_of_inside h hq hw₀ hwv hn (h.known hz he hs) hn'),← hSb,hTb]
    · exact hold (.inr ⟨t,T,hT,hTb,hn',hm',(hu.live t hts).mp hgone⟩)

/-- The annotation of an end was brought there. -/
theorem brings {u : ItemId} (h : q₀.Traced q) (hq : q.Reducible) (hy : q'.item? e = some y)
    (he : y.ends? = some ends) (hs : ends.Side j n m (some u)) (hne : u ≠ j)
    (hw : q'.item? j = some w) (hb : w.bounds = some b) :
    q₀.Brings (fun t => q'.container? t = none) n m b := by
  obtain ⟨S₀,hS₀,hSb⟩ := h.container hu.inner
  obtain ⟨z,w₀,hz,he,hw₀,hn,hwv,hwb⟩ := hu.side_back hq hy he hs hw
  by_cases hjv : j = v
  · -- The annotation is that of the subquery, and the other end was not in it.
    rw [hwb,if_pos hjv] at hb
    rw [hjv,hu.vertex] at hw₀
    cases hw₀
    obtain ⟨u₁,hu₁,hm,huv⟩ := hq.side hz he hs.flip
    refine .inr ⟨s,S₀,hS₀,hSb.trans hb,?_,fun hm' => ?_,hu.gone⟩
    · exact (h.inside hu.inner hu.vertex hwv hn (h.known hz he hs) hu.owner).mp .refl
    · exact hne ((hu.eq_of_inside h hq hu₁ huv hm (h.known hz he hs.flip) hm').trans hjv.symm)
  · rw [hwb,if_neg hjv] at hb
    refine (h.brings hz he hs hne hw₀ hb).imp fun t ht => ?_
    by_cases hts : t = s
    · rw [hts,hu.gone]
    · exact (hu.live t hts).mpr ht

/-- A query keeps its origin when a subquery is lifted. -/
theorem traced (h : q₀.Traced q) (hq : q.Reducible) : q₀.Traced q' := by
  refine ⟨h.named,?_,?_,?_,?_,hu.inside h hq,hu.brought h hq,hu.brings h hq⟩
  · intro j y hy hk
    obtain ⟨z,hz,hn,hbody,hb,-⟩ := hu.back hy
    have hzk : z.kind = .vertex := by rw [← hk,Item.kind,Item.kind,hbody]
    have hjv : j ≠ v := by
      rintro rfl
      rw [hu.vertex] at hz
      cases hz
      rw [hu.settled.kind] at hzk
      cases hzk
    obtain ⟨i,w,hw,hwn,hwb⟩ := h.plain hz hzk
    rw [if_neg hjv] at hb
    exact ⟨i,w,hw,hwn.trans hn.symm,hwb.trans hb.symm⟩
  · intro e y ends hy he
    obtain ⟨z,hz,hn,hbody,-⟩ := hu.back hy
    rw [Item.ends?,hbody] at he
    obtain ⟨i,w,ends₀,hw,hwe,hwn,hs,ht⟩ := h.edge hz he
    exact ⟨i,w,ends₀,hw,hwe,hwn.trans hn.symm,hs,ht⟩
  · intro e y ends j n m u hy he hs
    obtain ⟨z,hz,-,hbody,-⟩ := hu.back hy
    rw [Item.ends?,hbody] at he
    exact h.known hz he hs
  · intro c C hC
    obtain ⟨-,C₀,hC₀,hb⟩ := hu.container hC
    obtain ⟨D,hD,hDb⟩ := h.container hC₀
    exact ⟨D,hD,hDb.trans hb.symm⟩

end Unwrapped

/-- A reduction leaves owners and annotations as they are, or it lifts a subquery. -/
theorem Reduction.level_or_unwrapped {rule : Rule} {a : Application}
    (hr : Reduction q rule a q' out) (hw : q.WellFormed) : Level q q' a.items out ∨
      ∃ x s p S, a.items = [out] ∧ Unwrapped q q' out x s p S := by
  cases hr with
  | @getVertex v x edges c live kind bounds listed owner unmarked =>
    exact .inl (level_withReplaced hw live listed owner bounds rfl)
  | @absorbSelfLoop _ e x y ends c live settled edge ended loop owner bounds unmarked =>
    exact .inl (level_withoutEdge hw live (Item.isVertex_of_kind (.inr settled.kind)) settled.bounds
      edge ended owner (f:=Item.joinNames y.names) fun _ => ⟨rfl,rfl⟩)
  | @collapseEdge _ e u x y w ends edges c d able settled settled' unmarked together =>
    exact .inl (level_absorbed hw (able.leaves hw) able.edge able.ended able.absorbed able.kept
      settled.bounds together (.inl settled'.bounds) (f:=Item.joinNames (w.names ++ y.names))
      fun _ => ⟨rfl,rfl⟩)
  | @absorbAnnotatedVertex _ e u x y w ends c d a marker able settled bounds annotated unmarked
      unmarked' together marking marked =>
    exact .inl (level_absorbed hw (able.leaves_alone hw) able.edge able.ended able.absorbed able.kept
      settled.bounds together (.inr able.listed) (f:=fun z =>
        { z.joinNames (w.names ++ y.names) with provenance := marker }) fun _ => ⟨rfl,rfl⟩)
  | @applyUpperLimit _ x marker live kind bounds marked =>
    refine .inl (level_of_same live bounds (fun j => ?_) fun s => ?_)
    · rw [item?_mapItem]
      split
      · rw [Option.map_map]
        rfl
      · rfl
    · rw [container?_mapItem]
  | @eliminateSubquery _ x s p S live settled owner inner parent alone =>
    exact .inr ⟨x,s,p,S,rfl,lifted_of_alone hw inner parent alone.2.2.1 out,live,settled,owner,
      inner,parent,alone⟩
  | @processConstraint _ x k found c C rest live settled declared bounds inside owner first carried =>
    refine .inl (level_of_same live settled.bounds (fun j => ?_) fun s => ?_)
    · rw [item?_mapContainer]
    · rw [container?_mapContainer]
      split
      · rename_i hs
        rw [hs,owner]
        rfl
      · rfl

/-- A query keeps its origin under every reduction. -/
theorem Reduction.traced {rule : Rule} {a : Application} (hr : Reduction q rule a q' out)
    (h : q₀.Traced q) (hq : q.Reducible) : q₀.Traced q' := by
  rcases hr.level_or_unwrapped hq.wellFormed with hl|⟨x,s,p,S,-,hu⟩
  · exact hl.traced (hr.changes hq.wellFormed) h hq
  · exact hu.traced h hq

end Rule

end GraphPattern
