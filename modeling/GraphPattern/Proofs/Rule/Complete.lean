import GraphPattern.Proofs.Rule.Listing
import GraphPattern.Proofs.Rule.Solvable

/-!
# Reductions are listed

The rules list nothing but reductions, and they miss none: asked about the vertex that a reduction
keeps or replaces, its rule lists it. So a search that tries everything that is listed tries every
reduction.
-/

namespace GraphPattern

namespace Rule

open Query Step

variable {q q' : Query} {rule : Rule} {a : Application} {v e u out : ItemId} {x y w : Item}
  {ends : EdgeEnds} {edges : List ItemId} {c d : ContainerId}

/-- The rule lists the application when it is asked about the vertex. -/
def ListedAt (q : Query) (rule : Rule) (a : Application) (v : ItemId) : Prop :=
  v ∈ q.vertices .whole ∧ ∃ as, rule.applications q v = .ok as ∧ a ∈ as

theorem mem_vertices_of_kind (h : q.WellFormed) (hx : q.item? v = some x)
    (hk : x.kind = .vertex ∨ x.kind = .composite) : v ∈ q.vertices .whole :=
  h.mem_vertices.mpr ⟨x,hx,Item.isVertex_of_kind hk⟩

theorem Settled.mem_vertices (hs : Settled x) (h : q.WellFormed) (hx : q.item? v = some x) :
    v ∈ q.vertices .whole :=
  mem_vertices_of_kind h hx (.inr hs.kind)

/-- What is found along one edge of a vertex is found. -/
theorem mem_flatten_of_edge {f : ItemId → Except Error (List Application)}
    {bss : List (List Application)} (hall : List.Forall₂ (fun e as => f e = .ok as) edges bss)
    (he : e ∈ edges) (hf : f e = .ok [a]) : a ∈ bss.flatten := by
  obtain ⟨bs,hbs,hfe⟩ := exists_right hall he
  rw [hf] at hfe
  cases hfe
  exact List.mem_flatten.mpr ⟨_,hbs,List.mem_singleton_self a⟩

theorem listedAt_collapseEdge (h : q.WellFormed) (able : q.Absorbable e u v y w x ends edges c d)
    (hs : Settled x) (hs' : Settled w) (hm : y.provenance = none)
    (ho : x.container = w.container) :
    ListedAt q collapseEdge ⟨[v,e,u],[x.joinedName,y.joinedName,w.joinedName],none⟩ v := by
  have h1 := isSettled_iff.mpr hs
  obtain ⟨edges',he'⟩ := Item.isVertex_iff.mp able.isVertex
  obtain ⟨bss,hbss,hall⟩ := mapM_ok (f:=CollapseEdge.alongEdge q v) (l:=edges')
    (P:=fun e as => CollapseEdge.alongEdge q v e = .ok as) fun e hm =>
      (alongEdge_collapse h able.kept h1 able.isVertex he' hm).imp fun _ h => ⟨h.1,h.1⟩
  refine ⟨hs.mem_vertices h able.kept,_,applications_collapseEdge able.kept h1 he' hbss,?_⟩
  refine mem_flatten_of_edge hall ((h.incident.joined able.kept he').mpr
    ⟨y,able.edge,ends,able.ended,able.touches.2⟩) ?_
  have hopp := opposite?_symm able.opposite
  simp [CollapseEdge.alongEdge,item_of_some able.edge,able.ended,hopp,able.ne.symm,Item.isMarked,hm,
    crossesBoundary_ok able.edge able.ended hopp able.kept able.absorbed,ho,
    takesPart_ok able.absorbed,isSettled_iff.mpr hs',
    ofItems_three able.kept able.edge able.absorbed]

theorem listedAt_absorbAnnotatedVertex (h : q.WellFormed)
    (able : q.Absorbable e u v y w x ends [e] c d) (hs : Settled x) {bounds : Annotation}
    (hb : w.bounds = some bounds) (hy : y.bounds ≠ none) (hm : y.provenance = none)
    (hm' : w.provenance = none) (ho : x.container = w.container) :
    ListedAt q absorbAnnotatedVertex ⟨[v,e,u],[x.joinedName,y.joinedName,w.joinedName],none⟩ v := by
  have h1 := isSettled_iff.mpr hs
  obtain ⟨edges',he'⟩ := Item.isVertex_iff.mp able.isVertex
  obtain ⟨bss,hbss,hall⟩ := mapM_ok (f:=AbsorbAnnotatedVertex.alongEdge q v) (l:=edges')
    (P:=fun e as => AbsorbAnnotatedVertex.alongEdge q v e = .ok as) fun e hm =>
      (alongEdge_annotated h able.kept h1 able.isVertex he' hm).imp fun _ h => ⟨h.1,h.1⟩
  refine ⟨hs.mem_vertices h able.kept,_,
    applications_absorbAnnotatedVertex able.kept h1 he' hbss,?_⟩
  refine mem_flatten_of_edge hall ((h.incident.joined able.kept he').mpr
    ⟨y,able.edge,ends,able.ended,able.touches.2⟩) ?_
  have hopp := opposite?_symm able.opposite
  simp [AbsorbAnnotatedVertex.alongEdge,item_of_some able.edge,able.ended,hopp,able.ne.symm,hy,
    Item.isMarked,hm,hm',crossesBoundary_ok able.edge able.ended hopp able.kept able.absorbed,ho,
    item_of_some able.absorbed,Item.isAnnotated,hb,
    vertexEdges_of_some able.absorbed able.listed,
    ofItems_three able.kept able.edge able.absorbed]

theorem listedAt_absorbSelfLoop (h : q.WellFormed) (hx : q.item? v = some x) (hs : Settled x)
    (hy : q.item? e = some y) (he : y.ends? = some ends)
    (loop : ends.source = some v ∧ ends.target = some v) (hb : y.bounds = none)
    (hm : y.provenance = none) :
    ListedAt q absorbSelfLoop ⟨[v,e],[x.joinedName,y.joinedName],none⟩ v := by
  have h1 := isSettled_iff.mpr hs
  have hv : x.isVertex = true := Item.isVertex_of_kind (.inr hs.kind)
  obtain ⟨edges,hedges⟩ := Item.isVertex_iff.mp hv
  have hlist : e ∈ (edges.filter (loops q v)).filter (plainEdge q) := by
    refine List.mem_filter.mpr ⟨List.mem_filter.mpr ⟨?_,?_⟩,?_⟩
    · exact (h.incident.joined hx hedges).mpr ⟨y,hy,ends,he,.inl loop.1⟩
    · simp [loops,hy,he,EdgeEnds.opposite?,EdgeEnds.both?_eq_some.mpr loop]
    · simp [plainEdge,hy,Item.isAnnotated,Item.isMarked,hb,hm]
  obtain ⟨as,has,hall⟩ := mapM_ok (f:=fun e => Application.ofItems q [v,e])
    (l:=(edges.filter (loops q v)).filter (plainEdge q))
    (P:=fun e b => Application.ofItems q [v,e] = .ok b) fun e hm => by
    obtain ⟨z,-,-,hz,-⟩ := edge_of_listed h hx hedges (List.mem_filter.mp (List.mem_filter.mp hm).1).1
    exact ⟨_,ofItems_two hx hz,ofItems_two hx hz⟩
  obtain ⟨b,hb,hfe⟩ := exists_right hall hlist
  rw [ofItems_two hx hy] at hfe
  cases hfe
  exact ⟨hs.mem_vertices h hx,as,(applications_absorbSelfLoop h hx h1 hedges).trans has,hb⟩

theorem listedAt_getVertex (h : q.WellFormed) (hx : q.item? v = some x) (hk : x.kind = .vertex)
    (hb : x.bounds = none) (he : x.edges? = some edges)
    (hm : ∀ e ∈ edges, ∀ y, q.item? e = some y → y.provenance = none) :
    ListedAt q getVertex ⟨[v],[x.joinedName],none⟩ v := by
  have hitems : ∀ e ∈ edges, ∃ y, q.item e = .ok y ∧ y.provenance = none := by
    intro e hmem
    obtain ⟨y,hy,-⟩ := (h.incident.joined hx he).mp hmem
    exact ⟨y,item_of_some hy,hm e hmem y hy⟩
  obtain ⟨items,hi,hall⟩ := mapM_ok hitems
  have hv : x.isVertex = true := Item.isVertex_of_kind (.inl hk)
  have hnone : items.any Item.isMarked = false := by
    rw [List.any_eq_false]
    intro y hy
    obtain ⟨-,-,hp⟩ := exists_left hall hy
    simp [Item.isMarked,hp]
  refine ⟨mem_vertices_of_kind h hx (.inl hk),_,(applications_getVertex hx he hi).trans ?_,
    List.mem_singleton_self _⟩
  rw [if_neg (by simp [hv,Item.isComposite,hk,Item.isAnnotated,hb]),if_neg (by simp [hnone])]

/-- Every reduction is listed at a vertex of the query. -/
theorem Reduction.listedAt (h : q.WellFormed) (hr : Reduction q rule a q' out) :
    ∃ v, ListedAt q rule a v := by
  cases hr with
  | getVertex live kind bounds listed _ unmarked =>
    exact ⟨_,listedAt_getVertex h live kind bounds listed unmarked⟩
  | absorbSelfLoop live settled edge ended loop _ bounds unmarked =>
    exact ⟨_,listedAt_absorbSelfLoop h live settled edge ended loop bounds unmarked⟩
  | collapseEdge able settled settled' unmarked together =>
    exact ⟨_,listedAt_collapseEdge h able settled settled' unmarked together⟩
  | absorbAnnotatedVertex able settled bounds annotated unmarked unmarked' together =>
    exact ⟨_,listedAt_absorbAnnotatedVertex h able settled bounds annotated unmarked unmarked'
      together⟩
  | applyUpperLimit live kind bounds marked =>
    refine ⟨_,mem_vertices_of_kind h live (.inr kind),_,?_,List.mem_singleton_self _⟩
    rw [applications_applyUpperLimit live]
    simp [Item.isComposite,kind,Item.isAnnotated,bounds,Item.isMarked,marked]
  | eliminateSubquery live settled owner inner parent alone =>
    refine ⟨_,settled.mem_vertices h live,_,?_,List.mem_singleton_self _⟩
    rw [applications_eliminateSubquery live owner inner]
    simp [isSettled_iff.mpr settled,holdsOnly_iff.mpr ⟨⟨_,parent⟩,alone⟩]
  | @processConstraint _ _ k _ _ _ _ live settled declared bounds inside =>
    refine ⟨_,settled.mem_vertices h live,_,(applications_processConstraint live).trans
      (if_neg (by simp [isSettled_iff.mpr settled])),?_⟩
    refine List.mem_map.mpr ⟨k,List.mem_filter.mpr ⟨declared,?_⟩,rfl⟩
    simpa [bounds,Item.hasName] using inside

/-- What a rule of the library lists and carries out is a reduction. -/
theorem exists_reduction_of_listedAt (h : q.WellFormed) (hr : rule ∈ builtIn)
    (hl : ListedAt q rule a v) {r : Reduced} (ha : rule.apply q a = .ok r) :
    ∃ out, Reduction q rule a r.query out := by
  obtain ⟨hv,as,has,hm⟩ := hl
  obtain ⟨x,hx,hxv⟩ := h.mem_vertices.mp hv
  obtain ⟨bs,hbs,hall⟩ := tries_builtIn h hx hxv hr
  rw [has] at hbs
  cases hbs
  rcases hall a hm with ⟨q',out,hred⟩|⟨e,he⟩
  · rw [(hred.applied h).1] at ha
    cases ha
    exact ⟨out,hred⟩
  · rw [he] at ha
    cases ha

/-- The rules that reduce are those of the library. -/
theorem Reduction.mem_builtIn (hr : Reduction q rule a q' out) : rule ∈ builtIn := by
  cases hr <;> simp [builtIn]

end Rule

namespace Query

open Relation Rule

variable {q q' : Query}

/-- A rewrite of a query: a rule of the library lists an application at a vertex of the query, and
carries it out. -/
def Rewrites (q q' : Query) : Prop :=
  ∃ rule ∈ Rule.builtIn, ∃ v ∈ q.vertices .whole, ∃ as, rule.applications q v = .ok as ∧
    ∃ a ∈ as, ∃ r, rule.apply q a = .ok r ∧ r.query = q'

/-- Rewrites are reductions. -/
theorem rewrites_iff (h : q.WellFormed) : q.Rewrites q' ↔ q.ReducesTo q' := by
  constructor
  · rintro ⟨rule,hrule,v,hv,as,has,a,ha,r,happ,rfl⟩
    obtain ⟨out,hred⟩ := exists_reduction_of_listedAt h hrule ⟨hv,as,has,ha⟩ happ
    exact ⟨rule,a,out,hred⟩
  · rintro ⟨rule,a,out,hred⟩
    obtain ⟨v,hv,as,has,ha⟩ := hred.listedAt h
    exact ⟨rule,hred.mem_builtIn,v,hv,as,has,a,ha,_,(hred.applied h).1,rfl⟩

/-- Where rewrites lead, reductions do. -/
theorem reflTransGen_rewrites_iff (h : q.WellFormed) :
    ReflTransGen Rewrites q q' ↔ ReflTransGen ReducesTo q q' := by
  constructor
  · intro hq
    induction hq with
    | refl => exact .refl
    | tail _ hstep ih => exact ih.tail ((rewrites_iff (wellFormed_of_reflTransGen h ih)).mp hstep)
  · intro hq
    induction hq with
    | refl => exact .refl
    | tail hrest hstep ih =>
      exact ih.tail ((rewrites_iff (wellFormed_of_reflTransGen h hrest)).mpr hstep)

end Query

end GraphPattern
