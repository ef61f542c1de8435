import GraphPattern.Proofs.Query.History

/-!
# What an absorption changes

An edge goes, and the vertex at one of its ends is absorbed by the vertex at the other end. Every
other edge of the absorbed vertex moves over to the one that is kept, also loops, edges between the
two and edges with only one known end. The rest of the query stays as it is.
-/

namespace GraphPattern

theorem EdgeEnds.opposite?_of_both? {ends : EdgeEnds} {old new : ItemId} (hne : new ≠ old)
    (h : ends.both? = some (old,new) ∨ ends.both? = some (new,old)) :
    ends.opposite? old = some new := by
  rcases h with h|h
  · simp [opposite?,h]
  · simp [opposite?,h,hne]

/-- What a vertex is apart from its edges is all that the same vertex with other edges is. -/
theorem Item.SameButIncidence.eq_vertex {x y : Item} {edges : List ItemId}
    (h : x.SameButIncidence y) (hx : x.edges? = some edges) :
    x = { y with body := .vertex y.isComposite edges } := by
  have hc := h.isComposite
  obtain ⟨hnames,-,hcondition,hbounds,hprovenance,hcontainer⟩ := h
  obtain ⟨names,body,condition,bounds,provenance,container⟩ := x
  cases body with
  | edge ends => simp [Item.edges?] at hx
  | vertex composite listed =>
    have hcomposite : composite = y.isComposite := by
      rw [← hc]
      cases composite <;> rfl
    have hlisted : listed = edges := Option.some.inj hx
    dsimp only at hnames hcondition hbounds hprovenance hcontainer
    rw [hnames,hcondition,hbounds,hprovenance,hcontainer,hcomposite,hlisted]

theorem Item.mapEnds_of_ends? {x : Item} {ends : EdgeEnds} (f : EdgeEnds → EdgeEnds)
    (h : x.ends? = some ends) : x.mapEnds f = { x with body := .edge (f ends) } := by
  obtain ⟨names,body⟩ := x
  cases body with
  | vertex => simp [Item.ends?] at h
  | edge own =>
    cases h
    rfl

namespace Query

open Step

variable {q q' : Query} {e old new : ItemId}

/-- An edge has one vertex and another one at its ends, whichever way round. -/
def Joins (q : Query) (e old new : ItemId) : Prop :=
  ∃ x ends, q.item? e = some x ∧ x.ends? = some ends ∧ new ≠ old ∧
    (ends.both? = some (old,new) ∨ ends.both? = some (new,old))

/-- The second query is the first one without an edge and with one of its ends absorbed by the
other. -/
structure Contracts (q q' : Query) (e old new : ItemId) : Prop where
  /-- The name is the same. -/
  name : q'.name = q.name
  /-- The description is the same. -/
  description : q'.description = q.description
  /-- The edge and the absorbed vertex are gone. -/
  gone : q'.item? e = none ∧ q'.item? old = none
  /-- No item comes about. -/
  nothingNew : ∀ j, q.item? j = none → q'.item? j = none
  /-- Other vertices are as they were, with the edges that end at them. -/
  vertex : ∀ j x, q.item? j = some x → x.isVertex = true → j ≠ old → j ≠ new →
    q'.item? j = some x
  /-- Other edges are as they were, with the kept vertex for the absorbed one at their known ends. -/
  edge : ∀ j x ends, q.item? j = some x → x.ends? = some ends → j ≠ e →
    q'.item? j = some { x with body := .edge (ends.redirect old new) }
  /-- The kept vertex is as it was, with the other edges of both vertices. -/
  kept : ∃ u w moved edges gathered, q.item? old = some u ∧ u.edges? = some moved ∧
    q.item? new = some w ∧ w.edges? = some edges ∧
    q'.item? new = some { w with body := .vertex w.isComposite gathered } ∧
    gathered.Pairwise (· < ·) ∧ ∀ f, f ∈ gathered ↔ f ≠ e ∧ (f ∈ edges ∨ f ∈ moved)
  /-- The containers have lost the edge and the absorbed vertex and are as they were otherwise. -/
  container : ∀ a, q'.container? a = (q.container? a).map fun C =>
    { C with vertices := C.vertices.filter (· ≠ old), edges := C.edges.filter (· ≠ e) }

/-! ## The absorbed query -/

theorem title_foldl {α : Type} {g : Query → α → Query}
    (hg : ∀ q a, (g q a).name = q.name ∧ (g q a).description = q.description) (as : List α)
    (q : Query) : (as.foldl g q).name = q.name ∧ (as.foldl g q).description = q.description := by
  induction as generalizing q with
  | nil => exact ⟨rfl,rfl⟩
  | cons a as ih => exact ⟨(ih _).1.trans (hg q a).1,(ih _).2.trans (hg q a).2⟩

theorem title_withAbsorbed (q : Query) (c d : ContainerId) (e : ItemId) (ends : EdgeEnds)
    (old new : ItemId) (moved : List ItemId) :
    (q.withAbsorbed c d e ends old new moved).name = q.name ∧
      (q.withAbsorbed c d e ends old new moved).description = q.description := by
  have hdetach := title_foldl (g:=fun p f => p.mapItem old (Item.detach f))
    (fun _ _ => ⟨rfl,rfl⟩) moved (moved.foldl (moveEdge old new) (q.withoutEdge c e ends))
  have hmove := title_foldl (g:=moveEdge old new) (fun _ _ => ⟨rfl,rfl⟩) moved
    (q.withoutEdge c e ends)
  have hends := title_foldl (g:=fun p v => p.mapItem v (Item.detach e)) (fun _ _ => ⟨rfl,rfl⟩)
    [ends.source,ends.target].reduceOption
    (q.mapContainer c fun C => { C with edges := C.edges.filter (· ≠ e) })
  exact ⟨hdetach.1.trans (hmove.1.trans hends.1),hdetach.2.trans (hmove.2.trans hends.2)⟩

/-- The kept vertex lists the other edges of both vertices. An edge ends at it afterwards exactly if
it ended at one of the two before. -/
theorem Absorbed.mem_gathered {w : Item} (ha : q.Absorbed q' e old new w) (hq : q.Incident)
    (hq' : q'.Incident) (hne : new ≠ old) {u z : Item} {moved edges gathered : List ItemId}
    (hu : q.item? old = some u) (hm : u.edges? = some moved) (hw : q.item? new = some w)
    (he : w.edges? = some edges) (hz : q'.item? new = some z) (hg : z.edges? = some gathered)
    (f : ItemId) : f ∈ gathered ↔ f ≠ e ∧ (f ∈ edges ∨ f ∈ moved) := by
  rw [hq'.joined hz hg,hq.joined hw he,hq.joined hu hm]
  -- Neither of the two vertices is an edge, so that the claim is about the other items alone.
  have hother : ∀ {y : Item} {v : ItemId}, q.item? f = some y → y.Touches v →
      f ≠ old ∧ f ≠ new := fun hy ht =>
    ⟨Incident.ne_of_touches hy ht hu hm,Incident.ne_of_touches hy ht hw he⟩
  constructor
  · rintro ⟨y',hy',ht⟩
    have hfe : f ≠ e := fun h => by
      rw [h,ha.edgeGone] at hy'
      cases hy'
    have hfo : f ≠ old := fun h => by
      rw [h,ha.vertexGone] at hy'
      cases hy'
    have hfn : f ≠ new := Incident.ne_of_touches hy' ht hz hg
    rw [ha.other f hfe hfo hfn] at hy'
    obtain ⟨y,hy,rfl⟩ := Option.map_eq_some_iff.mp hy'
    rcases (Item.touches_mapEnds_redirect hne.symm).mp ht with ⟨-,ht⟩|⟨-,ht⟩
    · exact ⟨hfe,.inr ⟨y,hy,ht⟩⟩
    · exact ⟨hfe,.inl ⟨y,hy,ht⟩⟩
  · rintro ⟨hfe,⟨y,hy,ht⟩|⟨y,hy,ht⟩⟩
    · obtain ⟨hfo,hfn⟩ := hother hy ht
      refine ⟨_,by rw [ha.other f hfe hfo hfn,hy]; rfl,?_⟩
      exact (Item.touches_mapEnds_redirect hne.symm).mpr (.inr ⟨hne,ht⟩)
    · obtain ⟨hfo,hfn⟩ := hother hy ht
      refine ⟨_,by rw [ha.other f hfe hfo hfn,hy]; rfl,?_⟩
      exact (Item.touches_mapEnds_redirect hne.symm).mpr (.inl ⟨rfl,ht⟩)

theorem Absorbable.contracts {x u w : Item} {ends : EdgeEnds} {edges : List ItemId}
    {c d : ContainerId} (ha : q.Absorbable e old new x u w ends edges c d) (h : q.WellFormed) :
    q.Contracts (q.withAbsorbed c d e ends old new (edges.filter (· ≠ e))) e old new := by
  have hl := ha.leaves h
  have hwf := h.withAbsorbed ha
  obtain ⟨kept,hkept⟩ := Item.isVertex_iff.mp ha.isVertex
  have hu : u.isVertex = true := Item.isVertex_iff.mpr ⟨edges,ha.listed⟩
  constructor
  case name => exact (title_withAbsorbed q c d e ends old new _).1
  case description => exact (title_withAbsorbed q c d e ends old new _).2
  case gone => exact ⟨hl.edgeGone,hl.vertexGone⟩
  case nothingNew =>
    intro j hj
    have hne : ∀ {i : ItemId} {y : Item}, q.item? i = some y → j ≠ i := by
      rintro i y hi rfl
      rw [hj] at hi
      cases hi
    rw [hl.other j (hne ha.edge) (hne ha.absorbed) (hne ha.kept),hj]
    rfl
  case vertex =>
    intro j y hy hv ho hn
    have hje : j ≠ e := ne_of_ends ha.edge ha.ended hy hv
    rw [hl.other j hje ho hn,hy,Option.map_some,Item.mapEnds_id fun f hf => ?_]
    rw [Item.not_isVertex_iff.mpr ⟨f,hf⟩] at hv
    cases hv
  case edge =>
    intro j y f hy hf hje
    have ho : j ≠ old := (ne_of_ends hy hf ha.absorbed hu).symm
    have hn : j ≠ new := (ne_of_ends hy hf ha.kept ha.isVertex).symm
    rw [hl.other j hje ho hn,hy,Option.map_some,Item.mapEnds_of_ends? _ hf]
  case kept =>
    obtain ⟨z,hz,hsame⟩ := hl.kept
    obtain ⟨gathered,hg⟩ := Item.isVertex_iff.mp (hsame.isVertex.trans ha.isVertex)
    refine ⟨u,w,edges,kept,gathered,ha.absorbed,ha.listed,ha.kept,hkept,?_,?_,fun f => ?_⟩
    · rw [hz,← hsame.eq_vertex hg]
    · exact hwf.incident.increasing hz hg
    · exact hl.mem_gathered h.incident hwf.incident ha.ne ha.absorbed ha.listed ha.kept hkept hz
        hg f
  case container => exact hl.container

/-- A vertex at one end of an edge is absorbed by the vertex at the other end if both ends are known
and different. The edge and the vertex go, every other edge follows, and nothing else changes. In
every other case the absorption is refused. -/
theorem absorb_contracts (h : q.WellFormed) (e old : ItemId) :
    (∀ new, q.Joins e old new →
      ∃ q', absorb e old q = .ok () q' ∧ q'.WellFormed ∧ q.Contracts q' e old new) ∧
    ((∀ new, ¬q.Joins e old new) → Refuses (absorb e old) q) := by
  constructor
  · rintro new ⟨x,ends,hx,hxe,hne,hboth⟩
    obtain ⟨u,w,edges,c,d,ha⟩ :=
      h.exists_absorbable hx hxe (EdgeEnds.opposite?_of_both? hne hboth) hne
    exact ⟨_,absorb_ok h ha,h.withAbsorbed ha,ha.contracts h⟩
  · intro hnone
    rcases absorb_cases h e old with hr|⟨new,x,u,w,ends,edges,c,d,ha⟩
    · exact hr
    · refine absurd ⟨x,ends,ha.edge,ha.ended,ha.ne,?_⟩ (hnone new)
      exact (EdgeEnds.opposite?_eq_some ha.opposite).imp EdgeEnds.both?_eq_some.mpr
        EdgeEnds.both?_eq_some.mpr

/-- A vertex with an edge into a subquery. The vertex there has a loop, a second edge back and an
edge whose other end is unknown. -/
def crossing : Query := (bare "q" "").edited
  [.addVertex .root ⟨.bare ["kept"] (.vertex false []),@Item.Made.vertex "kept" _ rfl⟩,
    .addSubquery .root none,
    .addVertex ⟨1⟩ ⟨.bare ["absorbed"] (.vertex false []),@Item.Made.vertex "absorbed" _ rfl⟩,
    .addEdge .root ⟨.bare ["y"] (.edge ⟨none,none,"kept","absorbed",true⟩),
      @Item.Made.edge "y" "kept" "absorbed" true _ rfl⟩,
    .addEdge ⟨1⟩ ⟨.bare ["loop"] (.edge ⟨none,none,"absorbed","absorbed",true⟩),
      @Item.Made.edge "loop" "absorbed" "absorbed" true _ rfl⟩,
    .addEdge .root ⟨.bare ["back"] (.edge ⟨none,none,"absorbed","kept",true⟩),
      @Item.Made.edge "back" "absorbed" "kept" true _ rfl⟩,
    .addEdge ⟨1⟩ ⟨.bare ["half"] (.edge ⟨none,none,"absorbed","other",true⟩),
      @Item.Made.edge "half" "absorbed" "other" true _ rfl⟩]

/-- The loop and the second edge become loops of the kept vertex, the third edge keeps its unknown
end, and a loop cannot absorb its vertex. -/
theorem absorb_contracts_crossing : crossing.WellFormed ∧ crossing.Joins ⟨2⟩ ⟨1⟩ ⟨0⟩ ∧
    (∃ q', absorb ⟨2⟩ ⟨1⟩ crossing = .ok () q' ∧ q'.WellFormed ∧
      crossing.Contracts q' ⟨2⟩ ⟨1⟩ ⟨0⟩ ∧
      q'.item? ⟨0⟩ = some { Item.bare ["kept"] (.vertex false [⟨3⟩,⟨4⟩,⟨5⟩]) with
        container := some .root } ∧
      (∀ f ∈ [⟨3⟩,⟨4⟩,⟨5⟩], ((q'.item? f).bind Item.ends?).map (fun ends =>
        (ends.source,ends.target)) = some (some ⟨0⟩,if f = ⟨5⟩ then none else some ⟨0⟩))) ∧
    Refuses (absorb ⟨3⟩ ⟨1⟩) crossing := by
  have hwf : crossing.WellFormed := ((wellFormed_bare "q" "").edited _).1
  have hj : crossing.Joins ⟨2⟩ ⟨1⟩ ⟨0⟩ :=
    ⟨_,_,rfl,rfl,by decide,.inr rfl⟩
  obtain ⟨q',hq,hq',hc⟩ := (absorb_contracts hwf ⟨2⟩ ⟨1⟩).1 ⟨0⟩ hj
  -- Only the vertex at the end of a loop is at one of its ends.
  have hloop : ∀ new, ¬crossing.Joins ⟨3⟩ ⟨1⟩ new := by
    rintro new ⟨x,ends,hx,hxe,hne,hboth⟩
    cases hx
    cases hxe
    rcases hboth with hb|hb <;> cases hb <;> exact hne rfl
  refine ⟨hwf,hj,⟨q',hq,hq',hc,?_,?_⟩,(absorb_contracts hwf ⟨3⟩ ⟨1⟩).2 hloop⟩
  · cases hq
    rfl
  · cases hq
    decide

end Query

end GraphPattern
