import GraphPattern.Proofs.Query.Component
import GraphPattern.Proofs.Query.Moves
import GraphPattern.Proofs.Validation.Walk

/-!
# Taking out what may be absent

What may be absent can always be taken out of a well-formed query: once the edges are gone that may
be absent or end at such a vertex, no edge is left at the vertices, and once the vertices are gone
nothing is left in the subqueries, which go from the inside out. What is left is the query without
those elements, and it is in one part exactly when certain edges lead from each certain vertex to
all others.
-/

namespace GraphPattern.Query

open Relation Step

variable {q p : Query} {gone gone' : ItemId → Prop} {dropped dropped' : ContainerId → Prop}
  {e v u i : ItemId} {c : ContainerId}

/-- The second query is the first one without some items and some subqueries. -/
structure Trimmed (q p : Query) (gone : ItemId → Prop) (dropped : ContainerId → Prop) : Prop where
  /-- It is well formed. -/
  wellFormed : p.WellFormed
  /-- The other items are there, and their ends are what they were. -/
  stays : ∀ {i x}, q.item? i = some x → ¬gone i →
    ∃ y, p.item? i = some y ∧ y.SameButIncidence x ∧ y.ends? = x.ends?
  /-- There are no other items. -/
  back : ∀ {i y}, p.item? i = some y →
    ¬gone i ∧ ∃ x, q.item? i = some x ∧ y.SameButIncidence x ∧ y.ends? = x.ends?
  /-- The other containers are there, inside the same ones. -/
  container : ∀ {c}, ¬dropped c →
    (p.container? c).map Container.parent? = (q.container? c).map Container.parent?
  /-- The subqueries are not there. -/
  dropped : ∀ {c}, dropped c → p.container? c = none

namespace Trimmed

theorem refl (h : q.WellFormed) : q.Trimmed q (fun _ => False) fun _ => False where
  wellFormed := h
  stays hx _ := ⟨_,hx,.refl _,rfl⟩
  back hy := ⟨id,_,hy,.refl _,rfl⟩
  container _ := rfl
  dropped := False.elim

theorem congr (h : q.Trimmed p gone dropped) (hg : ∀ i, gone' i ↔ gone i)
    (hd : ∀ c, dropped' c ↔ dropped c) : q.Trimmed p gone' dropped' := by
  obtain rfl : gone' = gone := funext fun i => propext (hg i)
  obtain rfl : dropped' = dropped := funext fun c => propext (hd c)
  exact h

/-- The items that are left are vertices and edges as before. -/
theorem live_iff (h : q.Trimmed p gone dropped) (b : Bool) :
    (∃ y, p.item? i = some y ∧ y.isVertex = b) ↔
      (∃ x, q.item? i = some x ∧ x.isVertex = b) ∧ ¬gone i := by
  constructor
  · rintro ⟨y,hy,hyv⟩
    obtain ⟨hg,x,hx,hxy,-⟩ := h.back hy
    exact ⟨⟨x,hx,hxy.isVertex.symm.trans hyv⟩,hg⟩
  · rintro ⟨⟨x,hx,hxv⟩,hg⟩
    obtain ⟨y,hy,hxy,-⟩ := h.stays hx hg
    exact ⟨y,hy,hxy.isVertex.trans hxv⟩

theorem isEdge_iff (h : q.Trimmed p gone dropped) : p.IsEdge e ↔ q.IsEdge e ∧ ¬gone e :=
  h.live_iff false

theorem isVertex_iff (h : q.Trimmed p gone dropped) : p.IsVertex v ↔ q.IsVertex v ∧ ¬gone v :=
  h.live_iff true

theorem ends_iff (h : q.Trimmed p gone dropped) {s : Bool} :
    p.Ends e s v ↔ q.Ends e s v ∧ ¬gone e := by
  constructor
  · rintro ⟨y,ends,hy,he,hs⟩
    obtain ⟨hg,x,hx,-,hxy⟩ := h.back hy
    exact ⟨⟨x,ends,hx,hxy ▸ he,hs⟩,hg⟩
  · rintro ⟨⟨x,ends,hx,he,hs⟩,hg⟩
    obtain ⟨y,hy,-,hxy⟩ := h.stays hx hg
    exact ⟨y,ends,hy,hxy ▸ he,hs⟩

/-- An edge that is left can be removed. -/
theorem removeEdge (h : q.Trimmed p gone dropped) (he : q.IsEdge e) (hn : ¬gone e) :
    ∃ x p', Query.removeEdge e p = .ok x p' ∧
      q.Trimmed p' (fun i => gone i ∨ i = e) dropped := by
  obtain ⟨y,ends,hy,hends⟩ := Query.isEdge_iff.mp (h.isEdge_iff.mpr ⟨he,hn⟩)
  obtain ⟨c,C,hc,hC⟩ := h.wellFormed.owner hy
  refine ⟨_,_,removeEdge_ok h.wellFormed hy hends hc,h.wellFormed.withoutEdge hy hends hc,?_,?_,?_,?_⟩
  · intro i x hx hi
    obtain ⟨hi,hne⟩ := not_or.mp hi
    obtain ⟨z,hz,hxz,hze⟩ := h.stays hx hi
    rw [item?_withoutEdge,if_neg hne,hz]
    refine ⟨_,rfl,?_⟩
    split
    · exact ⟨(Item.sameButIncidence_detach e z).trans hxz,(Item.ends?_detach e z).trans hze⟩
    · exact ⟨hxz,hze⟩
  · intro i z hz
    rw [item?_withoutEdge] at hz
    split at hz
    · cases hz
    · rename_i hne
      obtain ⟨w,hw,rfl⟩ := Option.map_eq_some_iff.mp hz
      obtain ⟨hg,x,hx,hxw,hwe⟩ := h.back hw
      refine ⟨not_or.mpr ⟨hg,hne⟩,x,hx,?_⟩
      split
      · exact ⟨(Item.sameButIncidence_detach e w).trans hxw,(Item.ends?_detach e w).trans hwe⟩
      · exact ⟨hxw,hwe⟩
  · intro d hd
    rw [container?_withoutEdge h.wellFormed hy hc,Option.map_map,← h.container hd]
    rfl
  · intro d hd
    rw [container?_withoutEdge h.wellFormed hy hc,h.dropped hd]
    rfl

/-- A vertex that is left can be removed if no edge is left that ends there. -/
theorem removeVertex (h : q.Trimmed p gone dropped) (hv : q.IsVertex v) (hn : ¬gone v)
    (hedges : ∀ {e s}, q.Ends e s v → gone e) : ∃ x p', Query.removeVertex v p = .ok x p' ∧
      q.Trimmed p' (fun i => gone i ∨ i = v) dropped := by
  obtain ⟨y,hy,hyv⟩ := h.isVertex_iff.mpr ⟨hv,hn⟩
  obtain ⟨edges,hyedges⟩ := Item.isVertex_iff.mp hyv
  have hnone : edges = [] := by
    refine List.eq_nil_iff_forall_not_mem.mpr fun e he => ?_
    obtain ⟨s,hs⟩ := exists_ends_iff.mpr ((h.wellFormed.incident.joined hy hyedges).mp he)
    obtain ⟨hs,hg⟩ := h.ends_iff.mp hs
    exact hg (hedges hs)
  rw [hnone] at hyedges
  obtain ⟨c,C,hc,hC⟩ := h.wellFormed.owner hy
  have hitem : ∀ i, (p.withoutVertex c v).item? i = if i = v then none else p.item? i := fun i => by
    rw [withoutVertex,item?_dropItem,item?_mapContainer]
  refine ⟨_,_,removeVertex_ok h.wellFormed hy hyedges hc,
    h.wellFormed.withoutVertex hy hyedges hc,?_,?_,?_,?_⟩
  · intro i x hx hi
    obtain ⟨hi,hne⟩ := not_or.mp hi
    rw [hitem,if_neg hne]
    exact h.stays hx hi
  · intro i z hz
    rw [hitem] at hz
    split at hz
    · cases hz
    · rename_i hne
      exact (h.back hz).imp_left fun hg => not_or.mpr ⟨hg,hne⟩
  · intro d hd
    rw [container?_withoutVertex h.wellFormed hy hc,Option.map_map,← h.container hd]
    rfl
  · intro d hd
    rw [container?_withoutVertex h.wellFormed hy hc,h.dropped hd]
    rfl

/-- A subquery that is left can be removed if nothing is left inside it. -/
theorem removeSubquery (h : q.Trimmed p gone dropped) (hq : q.WellFormed) {C : Container}
    (hC : q.container? c = some C) (hne : c ≠ .root) (hn : ¬dropped c)
    (hitems : ∀ {i}, q.itemOwner i = some c → gone i)
    (hinner : ∀ {d}, q.Holds c d → dropped d) : ∃ x p', Query.removeSubquery c p = .ok x p' ∧
      q.Trimmed p' gone fun d => dropped d ∨ d = c := by
  have hparent : ∀ {d D}, ¬dropped d → p.container? d = some D →
      ∃ D₀, q.container? d = some D₀ ∧ D.parent? = D₀.parent? := fun {d D} hd hD => by
    obtain ⟨D₀,hD₀,he⟩ := exists_of_map_eq (h.container hd) hD
    exact ⟨D₀,hD₀,he.symm⟩
  obtain ⟨S,hS,hSp⟩ := exists_of_map_eq (h.container hn).symm hC
  obtain ⟨P,-,hCP,-⟩ := hq.nested.parent hC hne
  have hmembers : ∀ b, S.members b = [] := fun b => by
    refine List.eq_nil_iff_forall_not_mem.mpr fun i hi => ?_
    obtain ⟨y,hy,-,hyc⟩ := h.wellFormed.owned.member hS hi
    obtain ⟨hg,x,hx,hxy,-⟩ := h.back hy
    exact hg (hitems ((itemOwner_of_some hx).trans (hxy.container.symm.trans hyc)))
  have hsubs : S.subqueries = [] := by
    refine List.eq_nil_iff_forall_not_mem.mpr fun d hd => ?_
    obtain ⟨D,hD,hDp⟩ := h.wellFormed.nested.child hS hd
    have hdn : ¬dropped d := fun hd' => by
      rw [h.dropped hd'] at hD
      cases hD
    obtain ⟨D₀,hD₀,hp⟩ := hparent hdn hD
    obtain ⟨C',hC',hm⟩ := hq.nested.listed hD₀ (hp.symm.trans hDp)
    exact hdn (hinner ⟨C',hC',hm⟩)
  have hempty : S.isEmpty = true := isEmpty_iff.mpr ⟨hmembers true,hmembers false,hsubs⟩
  have hSP : S.parent? = some P := hSp.trans hCP
  have hcontainer : ∀ d, (p.withoutSubquery P c).container? d = if d = c then none else
      (p.container? d).map fun D =>
        if d = P then { D with subqueries := D.subqueries.filter (· ≠ c) } else D := fun d => by
    rw [withoutSubquery,container?_dropContainer,container?_mapContainer]
    split
    · rfl
    · split
      · rfl
      · simp
  refine ⟨_,_,removeSubquery_ok h.wellFormed hS hSP hempty,
    h.wellFormed.withoutSubquery hS hSP hempty,h.stays,h.back,?_,?_⟩
  · intro d hd
    obtain ⟨hd,hdc⟩ := not_or.mp hd
    rw [hcontainer,if_neg hdc,Option.map_map,← h.container hd]
    refine Option.map_congr fun D _ => ?_
    rw [Function.comp_apply]
    split <;> rfl
  · intro d hd
    rw [hcontainer]
    split
    · rfl
    · rename_i hdc
      rw [h.dropped (hd.resolve_right hdc)]
      rfl

end Trimmed

/-- The vertices and edges that have to go with what may be absent. -/
def Doomed (q : Query) (i : ItemId) : Prop :=
  q.MayVanish i ∨ ∃ s v, q.Ends i s v ∧ q.MayVanish v

/-- A loop that takes one element after another off a list ends, if every round does and leaves what
the next one needs. -/
theorem forM_rest {α : Type} {f : α → QueryEdit Unit} {l : List α} {T : List α → Query → Prop}
    (h : ∀ a as p, a :: as <:+ l → T (a :: as) p → ∃ p', f a p = .ok ⟨⟩ p' ∧ T as p') :
    ∀ (as : List α) (p : Query), as <:+ l → T as p → ∃ p', as.forM f p = .ok ⟨⟩ p' ∧ T [] p'
  | [], p, _, hp => ⟨p,rfl,hp⟩
  | a :: as, p, hall, hp => by
    obtain ⟨p₁,h₁,hp₁⟩ := h a as p hall hp
    obtain ⟨p₂,h₂,hp₂⟩ := forM_rest h as p₁ ((List.suffix_cons a as).trans hall) hp₁
    refine ⟨p₂,?_,hp₂⟩
    change (f a >>= fun _ => as.forM f) p = _
    rw [bind_of_ok h₁,h₂]

/-- An element that is taken off a list was in it, and is not in the rest. -/
theorem not_mem_rest {α : Type} {a : α} {as all : List α} (h : a :: as <:+ all) (hn : all.Nodup) :
    a ∈ all ∧ a ∉ as :=
  ⟨h.subset List.mem_cons_self,(List.nodup_cons.mp (hn.sublist h.sublist)).1⟩

theorem off_rest {α : Type} {a i : α} {as all : List α} (h : a :: as <:+ all) (hn : all.Nodup) :
    i ∈ all ∧ i ∉ as ↔ (i ∈ all ∧ i ∉ a :: as) ∨ i = a := by
  obtain ⟨hall,has⟩ := not_mem_rest h hn
  rw [List.mem_cons,not_or]
  constructor
  · rintro ⟨hi,hr⟩
    by_cases hia : i = a
    · exact .inr hia
    · exact .inl ⟨hi,hia,hr⟩
  · rintro (⟨hi,-,hr⟩|rfl)
    · exact ⟨hi,hr⟩
    · exact ⟨hall,has⟩

/-- Edges can be removed one after another. -/
theorem Trimmed.removeEdges (h : q.Trimmed p gone dropped) {es : List ItemId} (hn : es.Nodup)
    (hes : ∀ e ∈ es, q.IsEdge e ∧ ¬gone e) : ∃ p', (es.forM fun e => do
      let _ ← Query.removeEdge e) p = .ok ⟨⟩ p' ∧
        q.Trimmed p' (fun i => gone i ∨ i ∈ es) dropped := by
  obtain ⟨p',hrun,hp'⟩ := forM_rest (l:=es)
    (T:=fun as p => q.Trimmed p (fun i => gone i ∨ (i ∈ es ∧ i ∉ as)) dropped)
    (fun e as p hall hp => by
      obtain ⟨hmem,hrest⟩ := not_mem_rest hall hn
      obtain ⟨hedge,hgone⟩ := hes e hmem
      obtain ⟨x,p',hrun,hp'⟩ := hp.removeEdge hedge fun hg => hg.elim hgone fun hg =>
        hg.2 List.mem_cons_self
      exact ⟨p',bind_of_ok hrun _,hp'.congr (fun i => by rw [off_rest hall hn,or_assoc])
        fun _ => Iff.rfl⟩)
    es p (List.suffix_refl es) (h.congr (fun i => ⟨fun hi => hi.resolve_right fun hi => hi.2 hi.1,
      .inl⟩) fun _ => Iff.rfl)
  exact ⟨p',hrun,hp'.congr (fun i => or_congr_right (and_iff_left List.not_mem_nil).symm)
    fun _ => Iff.rfl⟩

/-- Vertices at which no edge is left can be removed one after another. -/
theorem Trimmed.removeVertices (h : q.Trimmed p gone dropped) {vs : List ItemId} (hn : vs.Nodup)
    (hvs : ∀ v ∈ vs, q.IsVertex v ∧ ¬gone v ∧ ∀ {e s}, q.Ends e s v → gone e) :
    ∃ p', (vs.forM fun v => do
      let _ ← Query.removeVertex v) p = .ok ⟨⟩ p' ∧
        q.Trimmed p' (fun i => gone i ∨ i ∈ vs) dropped := by
  obtain ⟨p',hrun,hp'⟩ := forM_rest (l:=vs)
    (T:=fun as p => q.Trimmed p (fun i => gone i ∨ (i ∈ vs ∧ i ∉ as)) dropped)
    (fun v as p hall hp => by
      obtain ⟨hmem,hrest⟩ := not_mem_rest hall hn
      obtain ⟨hvertex,hgone,hedges⟩ := hvs v hmem
      obtain ⟨x,p',hrun,hp'⟩ := hp.removeVertex hvertex (fun hg => hg.elim hgone fun hg =>
        hg.2 List.mem_cons_self) fun hs => .inl (hedges hs)
      exact ⟨p',bind_of_ok hrun _,hp'.congr (fun i => by rw [off_rest hall hn,or_assoc])
        fun _ => Iff.rfl⟩)
    vs p (List.suffix_refl vs) (h.congr (fun i => ⟨fun hi => hi.resolve_right fun hi => hi.2 hi.1,
      .inl⟩) fun _ => Iff.rfl)
  exact ⟨p',hrun,hp'.congr (fun i => or_congr_right (and_iff_left List.not_mem_nil).symm)
    fun _ => Iff.rfl⟩

/-- Subqueries in which nothing is left can be removed one after another, each before the one around
it. -/
theorem Trimmed.removeSubqueries (h : q.Trimmed p gone fun _ => False) (hq : q.WellFormed)
    {cs : List ContainerId} (hn : cs.Nodup) (hordered : cs.Pairwise fun a b => ¬q.Holds a b)
    (hcs : ∀ c ∈ cs, c ≠ .root ∧ (∃ C, q.container? c = some C) ∧
      (∀ {i}, q.itemOwner i = some c → gone i) ∧ ∀ {d}, q.Holds c d → d ∈ cs) :
    ∃ p', (cs.forM fun c => do
      let _ ← Query.removeSubquery c) p = .ok ⟨⟩ p' ∧ q.Trimmed p' gone fun c => c ∈ cs := by
  obtain ⟨p',hrun,hp'⟩ := forM_rest (l:=cs)
    (T:=fun as p => q.Trimmed p gone fun c => c ∈ cs ∧ c ∉ as)
    (fun c as p hall hp => by
      obtain ⟨hmem,hrest⟩ := not_mem_rest hall hn
      obtain ⟨hne,⟨C,hC⟩,hitems,hinner⟩ := hcs c hmem
      have hbefore : ∀ {d}, q.Holds c d → d ∈ cs ∧ d ∉ c :: as := fun {d} hd => by
        refine ⟨hinner hd,fun hm => ?_⟩
        rcases List.mem_cons.mp hm with rfl|hm
        · exact Nat.lt_irrefl _ (hq.nested.index_lt hd)
        · exact (List.pairwise_cons.mp (hordered.sublist hall.sublist)).1 d hm hd
      obtain ⟨x,p',hrun,hp'⟩ := hp.removeSubquery hq hC hne (fun hg => hg.2 List.mem_cons_self)
        hitems hbefore
      exact ⟨p',bind_of_ok hrun _,hp'.congr (fun _ => Iff.rfl) fun d => off_rest hall hn⟩)
    cs p (List.suffix_refl cs) (h.congr (fun _ => Iff.rfl) fun c =>
      iff_false_intro fun hc => hc.2 hc.1)
  exact ⟨p',hrun,hp'.congr (fun _ => Iff.rfl) fun c => (and_iff_left List.not_mem_nil).symm⟩

/-- The edges at some vertices, as they are looked up. -/
theorem exists_incident (h : q.WellFormed) {vs : List ItemId} (hvs : ∀ v ∈ vs, q.IsVertex v) :
    ∃ incident, vs.mapM q.vertexEdges = .ok incident ∧
      ∀ e, e ∈ incident.flatten ↔ ∃ v ∈ vs, ∃ s, q.Ends e s v := by
  obtain ⟨incident,hok,hall⟩ := mapM_ok (f:=q.vertexEdges)
    (P:=fun v edges => ∀ e, e ∈ edges ↔ ∃ s, q.Ends e s v) (l:=vs) fun v hv => by
      obtain ⟨x,hx,hxv⟩ := hvs v hv
      obtain ⟨edges,hedges⟩ := Item.isVertex_iff.mp hxv
      exact ⟨edges,vertexEdges_of_some hx hedges,fun e =>
        (h.incident.joined hx hedges).trans exists_ends_iff.symm⟩
  refine ⟨incident,hok,fun e => ?_⟩
  rw [List.mem_flatten]
  constructor
  · rintro ⟨edges,hedges,he⟩
    obtain ⟨v,hv,hiff⟩ := exists_left hall hedges
    exact ⟨v,hv,(hiff e).mp he⟩
  · rintro ⟨v,hv,he⟩
    obtain ⟨edges,hedges,hiff⟩ := exists_right hall hv
    exact ⟨edges,hedges,(hiff e).mpr he⟩

theorem MayVanish.live (h : q.MayVanish i) : q.IsVertex i ∨ q.IsEdge i := by
  cases hx : q.item? i with
  | none =>
    rw [MayVanish,itemBounds,itemOwner,hx] at h
    rcases h with h|⟨c,h,-⟩ <;> cases h
  | some x =>
    cases hv : x.isVertex with
    | true => exact .inl ⟨x,hx,hv⟩
    | false => exact .inr ⟨x,hx,hv⟩

/-- What may be absent can be taken out of a well-formed query. -/
theorem withoutNegated_ok (h : q.WellFormed) : ∃ p, q.withoutNegated = .ok p ∧
    q.Trimmed p q.Doomed fun c => c ∈ q.negated.subqueries := by
  have hvertices : ∀ v ∈ q.negated.vertices, q.IsVertex v ∧ q.MayVanish v := fun v hv =>
    (mem_negated_vertices h).mp hv
  obtain ⟨incident,hincident,hmem⟩ := exists_incident h fun v hv => (hvertices v hv).1
  let es := orderedSet (q.negated.edges ++ incident.flatten)
  have hes : ∀ {e}, e ∈ es ↔ (q.IsEdge e ∧ q.MayVanish e) ∨ ∃ s v, q.Ends e s v ∧ q.MayVanish v :=
    fun {e} => by
      rw [mem_orderedSet,List.mem_append,mem_negated_edges h,hmem e]
      refine or_congr_right ⟨fun ⟨v,hv,s,hs⟩ => ⟨s,v,hs,(hvertices v hv).2⟩,
        fun ⟨s,v,hs,hv⟩ => ⟨v,(mem_negated_vertices h).mpr ⟨hs.isVertex h,hv⟩,s,hs⟩⟩
  have hedge : ∀ e ∈ es, q.IsEdge e := fun e he => by
    rcases hes.mp he with ⟨he,-⟩|⟨s,v,hs,-⟩
    · exact he
    · exact hs.isEdge
  have hnodup : es.Nodup := (pairwise_orderedSet _).imp fun hlt heq => by
    rw [heq] at hlt
    exact Nat.lt_irrefl _ hlt
  obtain ⟨p₁,h₁,hp₁⟩ := (Trimmed.refl h).removeEdges hnodup fun e he => ⟨hedge e he,id⟩
  obtain ⟨p₂,h₂,hp₂⟩ := hp₁.removeVertices (nodup_negated_vertices h) fun v hv => by
    obtain ⟨hvertex,hvanish⟩ := hvertices v hv
    exact ⟨hvertex,fun hg => (hedge v (hg.resolve_left id)).not_isVertex hvertex,
      fun {e s} hs => .inr (hes.mpr (.inr ⟨s,v,hs,hvanish⟩))⟩
  have hgone : ∀ {i}, (False ∨ i ∈ es) ∨ i ∈ q.negated.vertices ↔ q.Doomed i := fun {i} => by
    rw [false_or,hes,mem_negated_vertices h,Doomed]
    constructor
    · rintro ((⟨-,hv⟩|he)|⟨-,hv⟩)
      · exact .inl hv
      · exact .inr he
      · exact .inl hv
    · rintro (hv|he)
      · exact hv.live.elim (fun hx => .inr ⟨hx,hv⟩) fun hy => .inl (.inl ⟨hy,hv⟩)
      · exact .inl (.inr he)
  have hp₂ : q.Trimmed p₂ q.Doomed fun _ => False := hp₂.congr (fun i => hgone.symm) fun _ => Iff.rfl
  have hordered := ordered_negated_subqueries h
  obtain ⟨p₃,h₃,hp₃⟩ := hp₂.removeSubqueries h
    (List.nodup_reverse.mpr (hordered.imp And.left))
    (List.pairwise_reverse.mpr (hordered.imp And.right)) fun c hc => by
      obtain ⟨hne,hlive,hunder⟩ := (mem_negated_subqueries h).mp (List.mem_reverse.mp hc)
      refine ⟨hne,hlive,fun {i} hi => .inl (.inr ⟨c,hi,hunder⟩),fun {d} hd => ?_⟩
      obtain ⟨C,hC,hm⟩ := hd
      obtain ⟨D,hD,hDp⟩ := h.nested.child hC hm
      refine List.mem_reverse.mpr ((mem_negated_subqueries h).mpr ⟨fun hr => ?_,⟨D,hD⟩,
        hunder.below (.single ⟨C,hC,hm⟩)⟩)
      have := h.nested.below hC hm
      rw [hr] at this
      exact Nat.not_lt_zero _ this
  refine ⟨p₃,?_,hp₃.congr (fun _ => Iff.rfl) fun c => List.mem_reverse.symm⟩
  have hrun : removeNegated q.negated q = .ok ⟨⟩ p₃ := by
    rw [removeNegated,bind_of_ok (get_apply q)]
    simp only [hincident]
    rw [bind_of_ok (lift_ok _ _),bind_of_ok h₁,bind_of_ok h₂,h₃]
  rw [withoutNegated,EStateM.run,hrun]

/-! ## Whether the rest is in one part -/

/-- An edge that cannot be absent joins two vertices that cannot be absent. -/
def SurelyJoined (q : Query) (v u : ItemId) : Prop :=
  ∃ e, q.Ends e true v ∧ q.Ends e false u ∧ ¬q.MayVanish e ∧ ¬q.MayVanish v ∧ ¬q.MayVanish u

/-- There is a vertex that cannot be absent, and edges lead from each such vertex to all others. -/
def SurelyConnected (q : Query) : Prop :=
  (∃ v, q.IsVertex v ∧ ¬q.MayVanish v) ∧
    ∀ v u, q.IsVertex v → ¬q.MayVanish v → q.IsVertex u → ¬q.MayVanish u →
      Relation.EqvGen q.SurelyJoined v u

/-- Nothing is wrong with a well-formed query without what may be absent exactly if it is
connected. -/
theorem connectionViolations_iff (h : q.WellFormed) :
    q.connectionViolations = [] ↔ q.SurelyConnected := by
  obtain ⟨p,hp,ht⟩ := withoutNegated_ok h
  have hvertex : ∀ {v}, v ∈ p.vertices .whole ↔ q.IsVertex v ∧ ¬q.MayVanish v := fun {v} => by
    rw [ht.wellFormed.mem_vertices]
    change p.IsVertex v ↔ _
    rw [ht.isVertex_iff]
    refine and_congr_right fun hv => not_congr ⟨fun hd => hd.resolve_right ?_,.inl⟩
    rintro ⟨s,u,hs,-⟩
    exact hs.isEdge.not_isVertex hv
  have hlink : p.EdgeFrom = q.SurelyJoined := by
    funext v u
    refine propext (exists_congr fun e => ?_)
    rw [ht.ends_iff,ht.ends_iff]
    constructor
    · rintro ⟨⟨hv,hd⟩,hu,-⟩
      exact ⟨hv,hu,fun he => hd (.inl he),fun hv' => hd (.inr ⟨true,v,hv,hv'⟩),
        fun hu' => hd (.inr ⟨false,u,hu,hu'⟩)⟩
    · rintro ⟨hv,hu,he,hv',hu'⟩
      have hd : ¬q.Doomed e := by
        rintro (he'|⟨s,w,hw,hw'⟩)
        · exact he he'
        · cases s with
          | true => exact hv' (hw.unique hv ▸ hw')
          | false => exact hu' (hw.unique hu ▸ hw')
      exact ⟨⟨hv,hd⟩,hu,hd⟩
  have hcount : q.connectionViolations = [] ↔ p.components.length = 1 := by
    rw [connectionViolations,hp]
    by_cases hone : p.components.length = 1 <;> simp [hone]
  rw [hcount,length_components ht.wellFormed,chained_eq,hlink,SurelyConnected]
  refine and_congr ?_ ?_
  · exact ⟨fun hne => (List.exists_mem_of_ne_nil _ hne).imp fun v => hvertex.mp,
      fun ⟨v,hv⟩ => List.ne_nil_of_mem (hvertex.mpr hv)⟩
  · simp only [hvertex,and_imp]
    exact ⟨fun hall v u hv hv' hu hu' => hall v hv hv' u hu hu',
      fun hall v hv hv' u hu hu' => hall v u hv hv' hu hu'⟩

end GraphPattern.Query
