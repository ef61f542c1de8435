import GraphPattern.Proofs.Rule.Parts
import GraphPattern.Proofs.Rule.Settling

/-!
# What becomes of the items of a query

Reductions merge the items of a query, so in every query that they lead to each item of the first
one has a place. What is asked of a later query can be read off the first one and off the places:
the names and the ends of its items, where its vertices lie, and where an annotation comes from.
-/

namespace GraphPattern

namespace Query

open Rule

variable {q₀ q q' : Query} {f : ItemId → ItemId} {e i j v u out : ItemId} {s : Bool}
  {c : ContainerId} {rule : Rule} {a : Application}

/-- A vertex without annotation. -/
def IsBare (q : Query) (v : ItemId) : Prop := q.IsVertex v ∧ q.itemBounds v = none

/-- An annotated vertex is one of the first query that nothing has been merged into. -/
structure Kept (q₀ q : Query) (f : ItemId → ItemId) (v : ItemId) : Prop where
  /-- It was there. -/
  vertex : q₀.IsVertex v
  /-- It is in its place. -/
  place : f v = v
  /-- Nothing else is there. -/
  only : ∀ {i x}, q₀.item? i = some x → f i = v → i = v
  /-- It has the same annotation. -/
  bounds : q.itemBounds v = q₀.itemBounds v
  /-- It has the same marker. -/
  marker : q.itemMarker v = q₀.itemMarker v

/-- An annotated vertex is what is left of an annotated subquery. -/
structure Left (q₀ q : Query) (f : ItemId → ItemId) (c : ContainerId) (v : ItemId) : Prop where
  /-- The subquery is gone. -/
  gone : q.container? c = none
  /-- It had the annotation. -/
  bounds : q₀.subqueryBounds c ≠ none ∧ q.itemBounds v = q₀.subqueryBounds c
  /-- The vertex lies in the root. -/
  owner : q.itemOwner v = some .root
  /-- It is not marked. -/
  marker : q.itemMarker v = none
  /-- What lay in the subquery is there, and no other vertex. -/
  fiber : ∀ {u}, q₀.IsVertex u → (f u = v ↔ q₀.itemOwner u = some c)

/-- Reductions have led from the first query to the second one, and the map tells the places of the
items of the first one. -/
structure Descends (q₀ q : Query) (f : ItemId → ItemId) : Prop where
  /-- The query is well formed. -/
  wellFormed : q.WellFormed
  /-- Its subqueries lie in the root. -/
  flat : q.Flat
  /-- Its constraints can be settled. -/
  settling : q.Settling
  /-- In the place of a vertex there is a vertex. -/
  vertex : ∀ {v}, q₀.IsVertex v → q.IsVertex (f v)
  /-- Every vertex is the place of one. -/
  origin : ∀ {v}, q.IsVertex v → ∃ u, q₀.IsVertex u ∧ f u = v
  /-- If it is not annotated, then of one that was not. -/
  bare : ∀ {v}, q.IsBare v → ∃ u, q₀.IsBare u ∧ f u = v
  /-- If it is annotated, then it was so before, or it is left of a subquery that was. -/
  annotated : ∀ {v}, q.IsVertex v → q.itemBounds v ≠ none →
    q₀.Kept q f v ∨ ∃ c, q₀.Left q f c v
  /-- An item has the names of the items whose place it is. -/
  names : ∀ {j n}, n ∈ q.itemNames j ↔ ∃ i, f i = j ∧ n ∈ q₀.itemNames i
  /-- An edge is in its place. -/
  edge : ∀ {e}, q.IsEdge e → q₀.IsEdge e ∧ f e = e
  /-- It is what it was. -/
  same : ∀ {e}, q.IsEdge e → q.itemBounds e = q₀.itemBounds e ∧ q.itemMarker e = q₀.itemMarker e ∧
    q.itemOwner e = q₀.itemOwner e
  /-- It names what it named. -/
  named : ∀ {e P}, q.IsEdge e → q₀.NamedAt e P → q.NamedAt e P
  /-- It ends in the places of its ends. -/
  ends : ∀ {e s v}, q.IsEdge e → (q.Ends e s v ↔ ∃ u, q₀.Ends e s u ∧ v = f u)
  /-- Seen from it, the same is annotated. -/
  annotatedAt : ∀ {e s}, q.IsEdge e → (q.AnnotatedAt e s ↔ q₀.AnnotatedAt e s)
  /-- An edge that is gone is where its ends are. -/
  gone : ∀ {e s v}, ¬q.IsEdge e → q₀.Ends e s v → f v = f e
  /-- Containers are old ones. -/
  container : ∀ {c C}, q.container? c = some C → ∃ C₀, q₀.container? c = some C₀ ∧
    C.bounds = C₀.bounds
  /-- In a subquery there is what was there. -/
  home : ∀ {c C v}, q.container? c = some C → c ≠ .root → q₀.IsVertex v →
    (q.itemOwner (f v) = some c ↔ q₀.itemOwner v = some c)
  /-- The vertices of a subquery that is gone are in one place, and one without annotation is
  there. -/
  joined : ∀ {c C}, q₀.container? c = some C → q.container? c = none → ∃ u, q₀.IsBare u ∧
    ∀ {v}, q₀.IsVertex v → q₀.itemOwner v = some c → f v = f u
  /-- Constraints are old ones. -/
  declared : ∀ {c k}, k ∈ q.declared c → k ∈ q₀.declared c
  /-- The names of a constraint that is gone are in one place, and a vertex without annotation is
  there. -/
  enforced : ∀ {c k}, k ∈ q₀.declared c → k ∈ q.declared c ∨ ∃ u, q₀.IsBare u ∧
    ∀ n ∈ k.itemNames, n ∈ q.itemNames (f u)

/-- At first everything is in its place. -/
theorem Descends.refl (h : q.WellFormed) (hf : q.Flat) (hs : q.Settling) : q.Descends q id where
  wellFormed := h
  flat := hf
  settling := hs
  vertex hv := hv
  origin hv := ⟨_,hv,rfl⟩
  bare hv := ⟨_,hv,rfl⟩
  annotated hv _ := .inl ⟨hv,rfl,fun _ h => h,rfl,rfl⟩
  names := by simp
  edge he := ⟨he,rfl⟩
  same _ := ⟨rfl,rfl,rfl⟩
  named _ h := h
  ends _ := by simp
  annotatedAt _ := Iff.rfl
  gone he hv := absurd hv.isEdge he
  container hC := ⟨_,hC,rfl⟩
  home _ _ _ := Iff.rfl
  joined hC hn := by
    rw [hC] at hn
    cases hn
  declared hk := hk
  enforced hk := .inl hk

section Step

variable (h : q₀.Descends q f) (hr : Reduction q rule a q' out)

include h hr

theorem Descends.origin_step (hv : q'.IsVertex v) :
    ∃ u, q₀.IsVertex u ∧ (f u).merged a.items out = v := by
  have hc := hr.changes h.wellFormed
  by_cases hvo : v = out
  · obtain ⟨w,hw,hwv,-⟩ := (hr.merges h.wellFormed).exists_bare
    obtain ⟨u,hu,rfl⟩ := h.origin hwv
    exact ⟨u,hu,hvo ▸ ItemId.merged_of_mem hw⟩
  · obtain ⟨hv,hm⟩ := (hc.isVertex_iff hvo).mp hv
    obtain ⟨u,hu,rfl⟩ := h.origin hv
    exact ⟨u,hu,ItemId.merged_of_not_mem hm⟩

theorem Descends.bare_step (hv : q'.IsBare v) :
    ∃ u, q₀.IsBare u ∧ (f u).merged a.items out = v := by
  have hc := hr.changes h.wellFormed
  by_cases hvo : v = out
  · obtain ⟨w,hw,hwv⟩ := (hr.merges h.wellFormed).exists_bare
    obtain ⟨u,hu,rfl⟩ := h.bare hwv
    exact ⟨u,hu,hvo ▸ ItemId.merged_of_mem hw⟩
  · obtain ⟨hv₀,hm⟩ := (hc.isVertex_iff hvo).mp hv.1
    obtain ⟨x,hx,-⟩ := id hv₀
    obtain ⟨u,hu,rfl⟩ := h.bare ⟨hv₀,(hc.same hx hm).2.1.symm.trans hv.2⟩
    exact ⟨u,hu,ItemId.merged_of_not_mem hm⟩

/-- A vertex that is not annotated has been there, or it has been annotated with its subquery. -/
theorem Descends.annotated_step (hv : q'.IsVertex v) (hb : q'.itemBounds v ≠ none) :
    q₀.Kept q' (fun i => (f i).merged a.items out) v ∨
      ∃ c, q₀.Left q' (fun i => (f i).merged a.items out) c v := by
  have hq := h.wellFormed
  have hc := hr.changes hq
  have hdead : ∀ {c}, q.container? c = none → q'.container? c = none := by
    intro c hn
    by_contra hne
    obtain ⟨C,hC⟩ := Option.ne_none_iff_exists'.mp hne
    obtain ⟨C₀,hC₀,-⟩ := hr.container_back hq hC
    rw [hn] at hC₀
    cases hC₀
  -- A vertex beside the one that came out was annotated before, and it still is as it was.
  have hold : v ≠ out → (q.itemOwner v = some .root → q'.itemOwner v = some .root) →
      q₀.Kept q' (fun i => (f i).merged a.items out) v ∨
        ∃ c, q₀.Left q' (fun i => (f i).merged a.items out) c v := by
    intro hvo hroot
    obtain ⟨hv₀,hm⟩ := (hc.isVertex_iff hvo).mp hv
    obtain ⟨x,hx,-⟩ := id hv₀
    obtain ⟨-,hb',hm'⟩ := hc.same hx hm
    have hplace : ∀ {i}, i.merged a.items out = v ↔ i = v := hc.merged_eq_iff hx hm
    rcases h.annotated hv₀ (hb' ▸ hb) with hk|⟨c,hl⟩
    · exact .inl ⟨hk.vertex,hplace.mpr hk.place,fun hi hf => hk.only hi (hplace.mp hf),
        hb'.trans hk.bounds,hm'.trans hk.marker⟩
    · exact .inr ⟨c,hdead hl.gone,⟨hl.bounds.1,hb'.trans hl.bounds.2⟩,hroot hl.owner,
        hm'.trans hl.marker,fun hu => hplace.trans (hl.fiber hu)⟩
  rcases hr.level_or_unwrapped hq with hl|⟨x,c,p,S,hi,hu⟩
  · refine hold (fun hvo => ?_) fun ho => ?_
    · obtain ⟨y,hy,-⟩ := hv
      rw [itemBounds_of_some hy] at hb
      exact hb (hl.bare (hvo ▸ hy))
    · by_cases hvo : v = out
      · obtain ⟨y,hy,-⟩ := hv
        rw [itemBounds_of_some hy] at hb
        exact absurd (hl.bare (hvo ▸ hy)) hb
      · obtain ⟨hv₀,hm⟩ := (hc.isVertex_iff hvo).mp hv
        have := hl.itemOwner hc hv₀
        rw [ItemId.merged_of_not_mem hm] at this
        exact this.trans ho
  · by_cases hvo : v = out
    · refine .inr ⟨c,hu.gone,?_,?_,?_,fun {w} hw => ?_⟩
      · obtain ⟨S₀,hS₀,hSb⟩ := h.container hu.inner
        rw [hvo,hu.itemBounds,if_pos rfl] at hb ⊢
        rw [subqueryBounds_of_some hS₀,← hSb]
        exact ⟨hb,rfl⟩
      · rw [hvo,hu.itemOwner,if_pos ((hu.itemOwner_iff hq).mpr rfl),hu.parent_eq hq h.flat]
      · rw [hvo,itemMarker,hu.item,hu.vertex]
        simp only [Option.map_some,Option.bind_some,if_pos]
        rw [if_pos hu.owner]
        exact hu.settled.provenance
      · rw [hi,ItemId.merged_self,hvo,← hu.itemOwner_iff hq]
        exact h.home hu.inner (hu.ne_root hq) hw
    · refine hold hvo fun ho => ?_
      rw [hu.itemOwner,if_neg (by
        rw [ho]
        exact fun h => hu.ne_root hq (Option.some.inj h).symm),ho]

theorem Descends.names_step {n : String} : n ∈ q'.itemNames j ↔
    ∃ i, (f i).merged a.items out = j ∧ n ∈ q₀.itemNames i := by
  have hc := hr.changes h.wellFormed
  have hlive : ∀ {i}, n ∈ q₀.itemNames i → ∃ x, q.item? (f i) = some x := fun hi => by
    obtain ⟨x,hx,-⟩ := mem_itemNames.mp (h.names.mpr ⟨_,rfl,hi⟩)
    exact ⟨x,hx⟩
  by_cases hj : j = out
  · rw [hj,hc.itemNames_out]
    constructor
    · rintro ⟨i,hi,hn⟩
      obtain ⟨i₀,rfl,hn₀⟩ := h.names.mp hn
      exact ⟨i₀,ItemId.merged_of_mem hi,hn₀⟩
    · rintro ⟨i,hi,hn⟩
      obtain ⟨x,hx⟩ := hlive hn
      exact ⟨f i,(hc.merged_eq_out hx).mp hi,h.names.mpr ⟨i,rfl,hn⟩⟩
  · constructor
    · intro hn
      obtain ⟨y,hy,-⟩ := mem_itemNames.mp hn
      obtain ⟨hm,x,hx,-⟩ := hc.back hy hj
      rw [(hc.same hx hm).1] at hn
      obtain ⟨i,rfl,hn₀⟩ := h.names.mp hn
      exact ⟨i,ItemId.merged_of_not_mem hm,hn₀⟩
    · rintro ⟨i,hi,hn⟩
      obtain ⟨x,hx⟩ := hlive hn
      have hm : f i ∉ a.items := fun hm => hj (hi.symm.trans (ItemId.merged_of_mem hm))
      rw [ItemId.merged_of_not_mem hm] at hi
      rw [← hi,(hc.same hx hm).1]
      exact h.names.mpr ⟨i,rfl,hn⟩

/-- Names stay in their place. -/
theorem Descends.names_mono {n : String} (hn : n ∈ q.itemNames j) :
    n ∈ q'.itemNames (j.merged a.items out) := by
  obtain ⟨i,rfl,hn₀⟩ := h.names.mp hn
  exact (h.names_step hr).mpr ⟨i,rfl,hn₀⟩

theorem Descends.gone_step (he : ¬q'.IsEdge e) (hv : q₀.Ends e s v) :
    (f v).merged a.items out = (f e).merged a.items out := by
  by_cases hq : q.IsEdge e
  · have hm : e ∈ a.items := by
      by_contra hm
      exact he ((hr.changes h.wellFormed).isEdge_iff.mpr ⟨hq,hm⟩)
    have hv' := (h.ends hq).mpr ⟨v,hv,rfl⟩
    rw [(h.edge hq).2,ItemId.merged_of_mem hm,
      ItemId.merged_of_mem ((hr.merges h.wellFormed).ends_mem h.wellFormed hv' hm)]
  · rw [h.gone hq hv]

theorem Descends.joined_step {C : Container} (hC : q₀.container? c = some C)
    (hn : q'.container? c = none) : ∃ u, q₀.IsBare u ∧ ∀ {v}, q₀.IsVertex v →
      q₀.itemOwner v = some c → (f v).merged a.items out = (f u).merged a.items out := by
  cases hq : q.container? c with
  | none =>
    obtain ⟨u,hu,hj⟩ := h.joined hC hq
    exact ⟨u,hu,fun hv ho => by rw [hj hv ho]⟩
  | some D =>
    rcases hr.container_cases h.wellFormed hq with ⟨D',hD',-⟩|⟨x,p,hi,hx⟩
    · rw [hn] at hD'
      cases hD'
    · have hout : q.SettledAt out := ⟨x,hx.vertex,hx.settled⟩
      obtain ⟨u,hu,huo⟩ := h.bare ⟨hout.isVertex,hout.itemBounds⟩
      refine ⟨u,hu,fun {v} hv ho => ?_⟩
      rw [← h.home hq (hx.ne_root h.wellFormed) hv,hx.itemOwner_iff h.wellFormed] at ho
      rw [ho,huo]

theorem Descends.enforced_step {k : Constraint} (hk : k ∈ q₀.declared c) : k ∈ q'.declared c ∨
    ∃ u, q₀.IsBare u ∧ ∀ n ∈ k.itemNames, n ∈ q'.itemNames ((f u).merged a.items out) := by
  rcases h.enforced hk with hk|⟨u,hu,hn⟩
  · rcases hr.declared_cases h.wellFormed hk with hk|⟨l,-,hl,hlk⟩
    · exact .inl hk
    · obtain ⟨x,hx,hs,hn⟩ := hl.inside
      have hout : q.SettledAt out := ⟨x,hx,hs⟩
      obtain ⟨u,hu,huo⟩ := h.bare ⟨hout.isVertex,hout.itemBounds⟩
      refine .inr ⟨u,hu,fun n hnk => h.names_mono hr ?_⟩
      rw [huo,itemNames_of_some hx]
      exact hn n (Constraint.itemNames_of_sameRelation hlk ▸ hnk)
  · exact .inr ⟨u,hu,fun n hnk => h.names_mono hr (hn n hnk)⟩

/-- After a reduction everything is where it was merged to. -/
theorem Descends.step : q₀.Descends q' fun i => (f i).merged a.items out where
  wellFormed := (hr.applied h.wellFormed).2
  flat := hr.flat h.wellFormed h.flat
  settling := (hr.settling_iff h.wellFormed).mp h.settling
  vertex hv := (hr.changes h.wellFormed).isVertex_merged (h.vertex hv)
  origin := h.origin_step hr
  bare := h.bare_step hr
  annotated := h.annotated_step hr
  names := h.names_step hr
  edge he := by
    obtain ⟨he,hm⟩ := (hr.changes h.wellFormed).isEdge_iff.mp he
    obtain ⟨he₀,hf⟩ := h.edge he
    exact ⟨he₀,by rw [hf,ItemId.merged_of_not_mem hm]⟩
  same he := by
    obtain ⟨he,hm⟩ := (hr.changes h.wellFormed).isEdge_iff.mp he
    obtain ⟨y,hy,-⟩ := id he
    obtain ⟨-,hb,hp⟩ := (hr.changes h.wellFormed).same hy hm
    obtain ⟨hb₀,hp₀,ho₀⟩ := h.same he
    exact ⟨hb.trans hb₀,hp.trans hp₀,(hr.itemOwner_edge h.wellFormed he hm).trans ho₀⟩
  named he hn := by
    obtain ⟨he,hm⟩ := (hr.changes h.wellFormed).isEdge_iff.mp he
    exact (hr.changes h.wellFormed).namedAt.mpr ⟨h.named he hn,hm⟩
  ends {e s v} he := by
    obtain ⟨he,hm⟩ := (hr.changes h.wellFormed).isEdge_iff.mp he
    rw [(hr.changes h.wellFormed).ends_iff]
    constructor
    · rintro ⟨-,u,hu,rfl⟩
      obtain ⟨w,hw,rfl⟩ := (h.ends he).mp hu
      exact ⟨w,hw,rfl⟩
    · rintro ⟨w,hw,rfl⟩
      exact ⟨hm,f w,(h.ends he).mpr ⟨w,hw,rfl⟩,rfl⟩
  annotatedAt he := by
    obtain ⟨he,hm⟩ := (hr.changes h.wellFormed).isEdge_iff.mp he
    rw [hr.annotatedAt_iff h.wellFormed h.flat hm,h.annotatedAt he]
  gone := h.gone_step hr
  container hC := by
    obtain ⟨C',hC',hb⟩ := hr.container_back h.wellFormed hC
    obtain ⟨C₀,hC₀,hb₀⟩ := h.container hC'
    exact ⟨C₀,hC₀,hb.trans hb₀⟩
  home hC hc hv := by
    obtain ⟨C',hC',-⟩ := hr.container_back h.wellFormed hC
    rw [hr.itemOwner_iff h.wellFormed h.flat hC hc (h.vertex hv)]
    exact h.home hC' hc hv
  joined := h.joined_step hr
  declared hk := h.declared (hr.declared_subset h.wellFormed hk)
  enforced := h.enforced_step hr

end Step

end Query

end GraphPattern
