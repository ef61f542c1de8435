import GraphPattern.Proofs.Rule.Inheritance

/-!
# A query that is ahead of another one

Of two queries that a third one has led to, one is ahead if it has merged everything that the other
one has merged, and more only where none of its own edges ends. Queries with the same content are
ahead of each other. A query that is ahead can follow every reduction of the other one: what the
reduction is about has been merged already, or the query, once it is calm, collapses the same edge.
-/

namespace GraphPattern.Query

open Rule

variable {q₀ p p' z z' : Query} {f g : ItemId → ItemId} {e v u out : ItemId} {s t : Bool}
  {c : ContainerId} {rule : Rule} {a : Application}

/-- The query `p` is ahead of the query `z`. -/
structure Ahead (q₀ p z : Query) (f g : ItemId → ItemId) : Prop where
  /-- The first query is regular. -/
  regular : q₀.Regular
  /-- It is orderly. -/
  orderly : q₀.Orderly
  /-- One query has come from it. -/
  left : q₀.Descends p f
  /-- The other one has come from it. -/
  right : q₀.Descends z g
  /-- What has one place here has one place there. -/
  merged : ∀ {i j x y}, q₀.item? i = some x → q₀.item? j = some y → g i = g j → f i = f j
  /-- The edges here are edges there. -/
  edge : ∀ {e}, p.IsEdge e → z.IsEdge e
  /-- Ends of these edges that meet here meet there. -/
  apart : ∀ {e e' s t v u}, p.IsEdge e → p.IsEdge e' → q₀.Ends e s v → q₀.Ends e' t u → f v = f u →
    g v = g u

namespace Ahead

variable (h : Ahead q₀ p z f g)

include h

theorem merged_vertex (hv : q₀.IsVertex v) (hu : q₀.IsVertex u) (he : g v = g u) : f v = f u := by
  obtain ⟨x,hx,-⟩ := hv
  obtain ⟨y,hy,-⟩ := hu
  exact h.merged hx hy he

/-- Names of one item there are names of one item here. -/
theorem names (hu : q₀.IsVertex u) {n : String} (hn : n ∈ z.itemNames (g u)) :
    n ∈ p.itemNames (f u) := by
  obtain ⟨i,hi,hn⟩ := h.right.names.mp hn
  obtain ⟨x,hx,-⟩ := mem_itemNames.mp hn
  obtain ⟨y,hy,-⟩ := hu
  exact h.left.names.mpr ⟨i,h.merged hx hy hi,hn⟩

/-- Seen from an edge here, the same is annotated there. -/
theorem annotatedAt_iff (he : p.IsEdge e) : p.AnnotatedAt e s ↔ z.AnnotatedAt e s :=
  (h.left.annotatedAt he).trans (h.right.annotatedAt (h.edge he)).symm

/-- Ends that meet here meet there. -/
theorem apart_ends {e e' : ItemId} (he : p.Ends e s v) (he' : p.Ends e' t v) :
    ∃ w, z.Ends e s w ∧ z.Ends e' t w := by
  obtain ⟨i,hi,rfl⟩ := h.left.exists_end he
  obtain ⟨j,hj,hij⟩ := h.left.exists_end he'
  refine ⟨g i,h.right.ends_place (h.edge he.isEdge) hi,?_⟩
  rw [h.apart he.isEdge he'.isEdge hi hj hij.symm]
  exact h.right.ends_place (h.edge he'.isEdge) hj

/-- What is there at an end of an edge is here at the same end. -/
theorem place_eq {i w : ItemId} {x : Item} (hi : q₀.item? i = some x) (hv : z.Ends e s v)
    (hw : p.Ends e s w) (hg : g i = v) : f i = w := by
  obtain ⟨j,hj,hgj⟩ := h.right.exists_end hv
  obtain ⟨y,hy,-⟩ := hj.isVertex h.regular.wellFormed
  exact (h.merged hi hy (hg.trans hgj.symm)).trans ((h.left.ends_place hw.isEdge hj).unique hw)

/-- What is here at the ends of two edges is there at both ends. -/
theorem apart_place {e' i w : ItemId} (hv : z.Ends e s v) (he : p.Ends e' t w) (hw : p.Ends e s w)
    (hi : q₀.Ends e' t i) : g i = v := by
  obtain ⟨j,hj,hgj⟩ := h.right.exists_end hv
  have hfi := (h.left.ends_place he.isEdge hi).unique he
  have hfj := (h.left.ends_place hw.isEdge hj).unique hw
  rw [h.apart he.isEdge hw.isEdge hi hj (hfi.trans hfj.symm),hgj]

/-! ## Reductions that the other query need not follow -/

/-- A query stays ahead when it does not collapse an edge. -/
theorem forward (hr : Reduction p rule a p' out) (hrule : rule ≠ collapseEdge) :
    Ahead q₀ p' z (fun i => (f i).merged a.items out) g where
  regular := h.regular
  orderly := h.orderly
  left := h.left.step hr
  right := h.right
  merged hi hj he := by rw [h.merged hi hj he]
  edge he := h.edge ((hr.changes h.left.wellFormed).isEdge_iff.mp he).1
  apart {e e' s t v u} he he' hv hu hvu := by
    have hp := h.left.wellFormed
    have hc := hr.changes hp
    obtain ⟨he,hm⟩ := hc.isEdge_iff.mp he
    obtain ⟨he',hm'⟩ := hc.isEdge_iff.mp he'
    refine h.apart he he' hv hu ?_
    have hfv := h.left.ends_place he hv
    have hfu := h.left.ends_place he' hu
    obtain ⟨x,hx,-⟩ := hfv.isVertex hp
    obtain ⟨y,hy,-⟩ := hfu.isVertex hp
    by_cases hvm : f v ∈ a.items
    · rw [ItemId.merged_of_mem hvm] at hvu
      exact (hr.merges hp).eq_of_ends hp hrule hfv hm hvm hfu hm' ((hc.merged_eq_out hy).mp hvu.symm)
    · rw [ItemId.merged_of_not_mem hvm] at hvu
      exact ((hc.merged_eq_iff hx hvm).mp hvu.symm).symm

/-- A query stays ahead when the other one merges what it has merged already. -/
theorem wait (hr : Reduction z rule a z' out) (hgone : ∀ e ∈ a.items, ¬p.IsEdge e) :
    Ahead q₀ p z' f fun i => (g i).merged a.items out where
  regular := h.regular
  orderly := h.orderly
  left := h.left
  right := h.right.step hr
  merged {i j x y} hi hj he := by
    have hz := h.right.wellFormed
    have hc := hr.changes hz
    obtain ⟨x',hx'⟩ := h.right.live h.regular.wellFormed hi
    obtain ⟨y',hy'⟩ := h.right.live h.regular.wellFormed hj
    by_cases hm : g i ∈ a.items
    · rw [ItemId.merged_of_mem hm] at he
      have hm' := (hc.merged_eq_out hy').mp he.symm
      rcases (hr.merges hz).parts with ⟨w,hw⟩|⟨e,hem,hedge,hparts⟩
      · rw [hw] at hm hm'
        exact h.merged hi hj ((List.mem_singleton.mp hm).trans (List.mem_singleton.mp hm').symm)
      · -- The edge is gone, so it is where its ends are.
        have hplace : ∀ {i x}, q₀.item? i = some x → g i ∈ a.items → f i = f e := by
          intro i x hi hm
          obtain ⟨hedge₀,hge⟩ := h.right.edge hedge
          rcases hparts _ hm with hie|⟨s,hs⟩
          · obtain ⟨y,hy,-⟩ := hedge₀
            exact h.merged hi hy (hie.trans hge.symm)
          · obtain ⟨u,hu,hgu⟩ := h.right.exists_end hs
            obtain ⟨y,hy,-⟩ := hu.isVertex h.regular.wellFormed
            rw [h.merged hi hy hgu.symm]
            exact h.left.gone (hgone e hem) hu
        rw [hplace hi hm,hplace hj hm']
    · rw [ItemId.merged_of_not_mem hm] at he
      exact h.merged hi hj ((hc.merged_eq_iff hx' hm).mp he.symm).symm
  edge {e} he := (hr.changes h.right.wellFormed).isEdge_iff.mpr
    ⟨h.edge he,fun hm => hgone e hm he⟩
  apart he he' hv hu hvu := by rw [h.apart he he' hv hu hvu]

/-! ## What a calm query that is ahead has done -/

section Calm

variable (hp : p.Calm)

include hp

theorem settledAt (hv : p.IsVertex v) (hb : p.itemBounds v = none) : p.SettledAt v :=
  hp.settledAt h.left.wellFormed (h.left.plain h.orderly) hv hb

variable (hz : z.Orderly)

include hz

/-- No edge joins an annotated vertex to another one in the same container. -/
theorem owner_ne (hv : p.Ends e s v) (hu : p.Ends e (!s) u) (hne : u ≠ v)
    (hb : p.itemBounds v ≠ none) : p.itemOwner u ≠ p.itemOwner v := by
  intro hc
  have hv' : p.Ends e (!!s) v := by rw [Bool.not_not]; exact hv
  have ha : p.AnnotatedAt e s := ⟨v,u,hv,hu,hne.symm,.inl hb⟩
  have hus : p.SettledAt u := h.settledAt hp (hu.isVertex h.left.wellFormed) (by
    by_contra hub
    exact h.left.oneSided h.orderly ha ⟨u,v,hu,hv',hne,.inl hub⟩)
  -- Another edge there would be annotated at the same vertex of the other query.
  have alone : ∀ {f t}, p.Ends f t v → f = e := by
    intro f t hf
    obtain ⟨w,hw⟩ := h.left.closed h.regular hf.isEdge (!t)
    have hwv : v ≠ w := by
      rintro rfl
      cases t with
      | true => exact hb (h.left.loopless h.regular h.orderly hf hw)
      | false => exact hb (h.left.loopless h.regular h.orderly hw hf)
    obtain ⟨r,hr,hr'⟩ := h.apart_ends hf hv
    exact hz.single ((h.annotatedAt_iff hf.isEdge).mp ⟨v,w,hf,hw,hwv,.inl hb⟩)
      ((h.annotatedAt_iff hv.isEdge).mp ha) hr hr'
  exact hp.not_applies (by decide) (exists_absorbAnnotatedVertex h.left.wellFormed
    (h.left.absorbs h.regular h.orderly hu hv hne hb hus hc alone))

/-- Where a vertex without annotation has gone there is a settled one. -/
theorem settledAt_place (hu : q₀.IsBare u) : p.SettledAt (f u) := by
  refine h.settledAt hp (h.left.vertex hu.1) ?_
  by_contra hb
  rcases h.left.annotated (h.left.vertex hu.1) hb with hk|⟨c,hl⟩
  · obtain ⟨x,hx,-⟩ := hu.1
    have := hk.only hx rfl
    exact hb (hk.bounds.trans (this ▸ hu.2))
  · -- An edge leads out of the subquery that the vertex is left of, and it is still there.
    obtain ⟨e,s,v,w,hv,hw,hvc,hwc⟩ := h.orderly.crossed hl.bounds.1
    have hvv := hv.isVertex h.regular.wellFormed
    have hwv := hw.isVertex h.regular.wellFormed
    have hfv := (hl.fiber hvv).mpr hvc
    have hfw : f w ≠ f u := fun he => hwc ((hl.fiber hwv).mp he)
    have he : p.IsEdge e := by
      by_contra he
      exact hfw ((h.left.gone he hw).trans ((h.left.gone he hv).symm.trans hfv))
    have hw' : q₀.Ends e (!!s) v := by rw [Bool.not_not]; exact hv
    have hcroot : c ≠ .root := fun hc => hl.bounds.1 (hc ▸ h.regular.wellFormed.subqueryBounds_root)
    have hroot := h.regular.root_of_crossing h.orderly hv hw hcroot hvc hwc
    exact h.owner_ne hp hz (hfv ▸ h.left.ends_place he hv) (h.left.ends_place he hw) hfw hb
      ((h.left.owner_root hwv hroot).trans hl.owner.symm)

omit hz in
/-- No constraint is left whose names a settled vertex has. -/
theorem not_declared {k : Constraint} (hv : p.SettledAt v)
    (hn : ∀ n ∈ k.itemNames, n ∈ p.itemNames v) : k ∉ p.declared c := by
  intro hk
  obtain ⟨d,m,hm,hkm,hb⟩ := h.left.settling.exists_plain hk
  refine hp.not_applies (by decide) (exists_processConstraint h.left.wellFormed hv hm
    (Constraint.sameRelation_self hkm) hb fun n hnm => hn n ?_)
  rw [Constraint.itemNames_of_sameRelation hkm]
  exact hnm

/-- A constraint that the other query has processed is processed. -/
theorem not_declared_of_enforced {k : Constraint} (hk : k ∉ z.declared c) : k ∉ p.declared c := by
  intro hkp
  rcases h.right.enforced (h.left.declared hkp) with hkz|⟨u,hu,hn⟩
  · exact hk hkz
  · exact h.not_declared hp (h.settledAt_place hp hz hu) (fun n hn' => h.names hu.1 (hn n hn')) hkp

/-- A subquery that the other query has lifted is lifted. -/
theorem container_gone (hc : z.container? c = none) (hroot : c ≠ .root) : p.container? c = none := by
  by_contra hne
  obtain ⟨C,hC⟩ := Option.ne_none_iff_exists'.mp hne
  obtain ⟨C₀,hC₀,-⟩ := h.left.container hC
  have hq := h.left.wellFormed
  obtain ⟨u,hu,hj⟩ := h.right.joined hC₀ hc
  obtain ⟨w,hw,hwc⟩ := h.regular.inhabited hC₀
  have hplace : ∀ {v}, q₀.IsVertex v → q₀.itemOwner v = some c → f v = f u := fun hv hvc =>
    h.merged_vertex hv hu.1 (hj hv hvc)
  have howner : p.itemOwner (f u) = some c := by
    rw [← hplace hw hwc]
    exact (h.left.home hC hroot hw).mpr hwc
  have hs := h.settledAt_place hp hz hu
  -- It holds nothing but the vertex.
  refine hp.not_applies (by decide) (exists_eliminateSubquery hq h.left.flat hs howner hC hroot
    (fun {v} hv hvc => ?_) (fun {e} he hec => ?_) fun k => ?_)
  · obtain ⟨v₀,hv₀,rfl⟩ := h.left.origin hv
    exact hplace hv₀ ((h.left.home hC hroot hv₀).mp hvc)
  · have hez := h.edge he
    obtain ⟨y,hy,-⟩ := id hez
    obtain ⟨d,D,hd,hD⟩ := h.right.wellFormed.itemOwner hy
    rw [(h.right.same hez).2.2,← (h.left.same he).2.2,hec] at hd
    cases hd
    rw [hc] at hD
    cases hD
  · refine h.not_declared_of_enforced hp hz fun hkz => ?_
    obtain ⟨D,hD,-⟩ := mem_declared.mp hkz
    rw [hc] at hD
    cases hD

/-- Vertices that lie together there lie together here. -/
theorem owner_eq (hv : q₀.IsVertex v) (hu : q₀.IsVertex u)
    (hc : z.itemOwner (g v) = z.itemOwner (g u)) : p.itemOwner (f v) = p.itemOwner (f u) := by
  have hkey : ∀ {v u : ItemId} {d : ContainerId}, q₀.IsVertex v → q₀.IsVertex u →
      z.itemOwner (g v) = z.itemOwner (g u) → p.itemOwner (f v) = some d → d ≠ .root →
        p.itemOwner (f u) = some d := by
    intro v u d hv hu hc hd hroot
    obtain ⟨x,hx,-⟩ := h.left.vertex hv
    obtain ⟨d',D,hd',hD⟩ := h.left.wellFormed.itemOwner hx
    rw [hd] at hd'
    cases hd'
    cases hE : z.container? d with
    | none =>
      rw [h.container_gone hp hz hE hroot] at hD
      cases hD
    | some E =>
      rw [h.left.home hD hroot hv,← h.right.home hE hroot hv,hc,h.right.home hE hroot hu,
        ← h.left.home hD hroot hu] at hd
      exact hd
  obtain ⟨x,hx,-⟩ := h.left.vertex hv
  obtain ⟨d,-,hd,-⟩ := h.left.wellFormed.itemOwner hx
  obtain ⟨y,hy,-⟩ := h.left.vertex hu
  obtain ⟨d',-,hd',-⟩ := h.left.wellFormed.itemOwner hy
  by_cases hroot : d = .root
  · by_cases hroot' : d' = .root
    · rw [hd,hd',hroot,hroot']
    · rw [hd',hkey hu hv hc.symm hd' hroot']
  · rw [hd,hkey hv hu hc hd hroot]

/-! ## Following a reduction -/

omit hz in
/-- A self-loop that the other query can absorb is absorbed. -/
theorem not_isEdge_of_loop (he : ∀ s, z.Ends e s v) (hb : z.itemBounds e = none) :
    ¬p.IsEdge e := by
  intro hep
  obtain ⟨i,hi,hgi⟩ := h.right.exists_end (he true)
  obtain ⟨j,hj,hgj⟩ := h.right.exists_end (he false)
  have hij := h.merged_vertex (hi.isVertex h.regular.wellFormed) (hj.isVertex h.regular.wellFormed)
    (hgi.trans hgj.symm)
  have hsource := h.left.ends_place hep hi
  have htarget := h.left.ends_place hep hj
  rw [← hij] at htarget
  have hs := h.settledAt hp (hsource.isVertex h.left.wellFormed)
    (h.left.loopless h.regular h.orderly hsource htarget)
  refine hp.not_applies (by decide) (exists_absorbSelfLoop h.left.wellFormed (fun s => ?_) hs ?_
    (h.left.plain h.orderly hep))
  · cases s
    · exact htarget
    · exact hsource
  · rw [(h.left.same hep).1,← (h.right.same (h.edge hep)).1,hb]

/-- An annotated vertex that the other query can absorb is absorbed. -/
theorem not_isEdge_of_absorbs (ha : z.Absorbs v e s u) : ¬p.IsEdge e := by
  intro hep
  obtain ⟨i,hi,hgi⟩ := h.right.exists_end ha.far
  obtain ⟨j,hj,hgj⟩ := h.right.exists_end ha.near
  have hfar := h.left.ends_place hep hi
  have hnear := h.left.ends_place hep hj
  have ho := h.owner_eq hp hz (hj.isVertex h.regular.wellFormed) (hi.isVertex h.regular.wellFormed)
    (by rw [hgi,hgj,ha.together])
  obtain ⟨w,r,hw,hr,hne,hb⟩ := (h.annotatedAt_iff hep).mpr ha.annotatedAt
  cases hw.unique hfar
  cases hr.unique hnear
  -- They lie together, so the vertex itself is annotated.
  rcases hb with hb|⟨c,hc,hc',-⟩
  · exact h.owner_ne hp hz hfar hnear hne.symm hb ho
  · exact hc' (ho.trans hc)

/-- An edge that the other query collapses can be collapsed. -/
theorem exists_collapse (hv : z.Ends e s v) (hu : z.Ends e (!s) u) (hne : v ≠ u)
    (hvs : z.SettledAt v) (hus : z.SettledAt u) (hc : z.itemOwner v = z.itemOwner u)
    (he : p.IsEdge e) : ∃ w r a p', p.Ends e s w ∧ p.Ends e (!s) r ∧ a.items = [w,e,r] ∧
      Reduction p collapseEdge a p' w := by
  obtain ⟨i,hi,hgi⟩ := h.right.exists_end hv
  obtain ⟨j,hj,hgj⟩ := h.right.exists_end hu
  have hiv := hi.isVertex h.regular.wellFormed
  have hjv := hj.isVertex h.regular.wellFormed
  have hw := h.left.ends_place he hi
  have hr := h.left.ends_place he hj
  have hu' : z.Ends e (!!s) v := by rw [Bool.not_not]; exact hv
  have hr' : p.Ends e (!!s) (f i) := by rw [Bool.not_not]; exact hw
  have hfne : f i ≠ f j := fun heq => hne (by rw [← hgi,← hgj,h.apart he he hi hj heq])
  have hbare : ∀ {t x y x' y'}, z.Ends e t x → z.Ends e (!t) y → z.SettledAt x →
      z.itemOwner x = z.itemOwner y → p.Ends e t x' → p.Ends e (!t) y' → x' ≠ y' →
        p.SettledAt x' := by
    intro t x y x' y' hx hy hxs hc hx' hy' hne
    refine h.settledAt hp (hx'.isVertex h.left.wellFormed) ?_
    by_contra hb
    exact not_annotatedAt hx hy hxs.itemBounds hc
      ((h.annotatedAt_iff he).mp ⟨x',y',hx',hy',hne,.inl hb⟩)
  obtain ⟨a,p',hi,hr''⟩ := exists_collapseEdge h.left.wellFormed hw hr hfne
    (hbare hv hu hvs hc hw hr hfne) (hbare hu hu' hus hc.symm hr hr' hfne.symm)
    (h.owner_eq hp hz hiv hjv (by rw [hgi,hgj,hc])) (h.left.plain h.orderly he)
  exact ⟨f i,f j,a,p',hw,hr,hi,hr''⟩

omit hp hz in
/-- A query stays ahead when both collapse the same edge. -/
theorem collapse {w r : ItemId} {b : Application} {rule' : Rule} (hv : z.Ends e s v)
    (hu : z.Ends e (!s) u) (hw : p.Ends e s w) (hr : p.Ends e (!s) r)
    (ha : a.items = [v,e,u]) (hb : b.items = [w,e,r]) (hz : Reduction z rule a z' v)
    (hp : Reduction p rule' b p' w) :
    Ahead q₀ p' z' (fun i => (f i).merged b.items w) fun i => (g i).merged a.items v where
  regular := h.regular
  orderly := h.orderly
  left := h.left.step hp
  right := h.right.step hz
  merged {i j x y} hi hj he := by
    have hc := hz.changes h.right.wellFormed
    obtain ⟨x',hx'⟩ := h.right.live h.regular.wellFormed hi
    obtain ⟨y',hy'⟩ := h.right.live h.regular.wellFormed hj
    have hplace : ∀ {i x}, q₀.item? i = some x → g i ∈ a.items → f i ∈ b.items := by
      intro i x hi hm
      rw [ha] at hm
      rw [hb]
      simp only [List.mem_cons,List.not_mem_nil,or_false] at hm ⊢
      rcases hm with hm|hm|hm
      · exact .inl (h.place_eq hi hv hw hm)
      · obtain ⟨hedge,hge⟩ := h.right.edge hv.isEdge
        obtain ⟨y,hy,-⟩ := hedge
        exact .inr (.inl ((h.merged hi hy (hm.trans hge.symm)).trans (h.left.edge hw.isEdge).2))
      · exact .inr (.inr (h.place_eq hi hu hr hm))
    by_cases hm : g i ∈ a.items
    · rw [ItemId.merged_of_mem hm] at he
      rw [ItemId.merged_of_mem (hplace hi hm),
        ItemId.merged_of_mem (hplace hj ((hc.merged_eq_out hy').mp he.symm))]
    · rw [ItemId.merged_of_not_mem hm] at he
      rw [h.merged hi hj ((hc.merged_eq_iff hx' hm).mp he.symm).symm]
  edge {e'} he := by
    obtain ⟨he,hm⟩ := (hp.changes h.left.wellFormed).isEdge_iff.mp he
    refine (hz.changes h.right.wellFormed).isEdge_iff.mpr ⟨h.edge he,fun hm' => ?_⟩
    rw [hb] at hm
    rw [ha] at hm'
    simp only [List.mem_cons,List.not_mem_nil,or_false] at hm hm'
    rcases hm' with rfl|rfl|rfl
    · exact (h.edge he).not_isVertex (hv.isVertex h.right.wellFormed)
    · exact hm (.inr (.inl rfl))
    · exact (h.edge he).not_isVertex (hu.isVertex h.right.wellFormed)
  apart {e₁ e₂ s₁ s₂ v₁ v₂} he₁ he₂ hv₁ hv₂ he := by
    have hc := hp.changes h.left.wellFormed
    have he₁ := (hc.isEdge_iff.mp he₁).1
    have he₂ := (hc.isEdge_iff.mp he₂).1
    have hplace : ∀ {e' t i}, p.IsEdge e' → q₀.Ends e' t i → f i ∈ b.items → g i ∈ a.items := by
      intro e' t i he' hi hm
      have hfi := h.left.ends_place he' hi
      rw [hb] at hm
      rw [ha]
      simp only [List.mem_cons,List.not_mem_nil,or_false] at hm ⊢
      rcases hm with hm|hm|hm
      · exact .inl (h.apart_place hv (hm ▸ hfi) hw hi)
      · exact absurd hm (isVertex_ne_isEdge (hfi.isVertex h.left.wellFormed) hw.isEdge)
      · exact .inr (.inr (h.apart_place hu (hm ▸ hfi) hr hi))
    obtain ⟨x₁,hx₁,-⟩ := (h.left.ends_place he₁ hv₁).isVertex h.left.wellFormed
    obtain ⟨x₂,hx₂,-⟩ := (h.left.ends_place he₂ hv₂).isVertex h.left.wellFormed
    by_cases hm : f v₁ ∈ b.items
    · rw [ItemId.merged_of_mem hm] at he
      rw [ItemId.merged_of_mem (hplace he₁ hv₁ hm),
        ItemId.merged_of_mem (hplace he₂ hv₂ ((hc.merged_eq_out hx₂).mp he.symm))]
    · rw [ItemId.merged_of_not_mem hm] at he
      rw [h.apart he₁ he₂ hv₁ hv₂ ((hc.merged_eq_iff hx₁ hm).mp he.symm).symm]

/-- A calm query follows every reduction of the other query. -/
theorem follow (hr : Reduction z rule a z' out) :
    ∃ p' f' g', Relation.ReflTransGen ReducesTo p p' ∧ Ahead q₀ p' z' f' g' := by
  by_cases hex : ∃ e ∈ a.items, p.IsEdge e
  · obtain ⟨e,hm,he⟩ := hex
    have hez := h.edge he
    have hmerges := hr.merges h.right.wellFormed
    generalize hi : a.items = items at hm hmerges
    cases hmerges with
    | alone vertex bounds =>
      exact absurd (List.mem_singleton.mp hm ▸ vertex) hez.not_isVertex
    | loop ends settled bounds unmarked =>
      rcases List.mem_pair.mp hm with rfl|rfl
      · exact absurd settled.isVertex hez.not_isVertex
      · exact absurd he (h.not_isEdge_of_loop hp ends bounds)
    | join near far ne settled settled' together unmarked =>
      simp only [List.mem_cons,List.not_mem_nil,or_false] at hm
      rcases hm with rfl|rfl|rfl
      · exact absurd settled.isVertex hez.not_isVertex
      · obtain ⟨w,r,b,p',hw,hr',hb,hrp⟩ :=
          h.exists_collapse hp hz near far ne settled settled' together he
        exact ⟨p',_,_,.single ⟨_,b,w,hrp⟩,h.collapse near far hw hr' hi hb hr hrp⟩
      · exact absurd settled'.isVertex hez.not_isVertex
    | absorb ha =>
      simp only [List.mem_cons,List.not_mem_nil,or_false] at hm
      rcases hm with rfl|rfl|rfl
      · exact absurd ha.settled.isVertex hez.not_isVertex
      · exact absurd he (h.not_isEdge_of_absorbs hp hz ha)
      · exact absurd (ha.far.isVertex h.right.wellFormed) hez.not_isVertex
  · exact ⟨p,f,_,.refl,h.wait hr fun e hm he => hex ⟨e,hm,he⟩⟩

/-- A calm query is consolidated if the other query is. -/
theorem consolidated (hcon : z.isConsolidated = true) : p.isConsolidated = true := by
  obtain ⟨v,x,hx,hxs,honly,hcontainer,hnone⟩ := eq_of_consolidated h.right.wellFormed hcon
  have hq := h.left.wellFormed
  have hv : z.SettledAt v := ⟨x,hx,hxs⟩
  obtain ⟨u,hu,rfl⟩ := h.right.bare ⟨hv.isVertex,hv.itemBounds⟩
  have hs := h.settledAt_place hp hz hu
  -- All vertices are in one place, and no edge is left.
  have hvertex : ∀ {w}, p.IsVertex w → w = f u := by
    intro w hw
    obtain ⟨w₀,hw₀,rfl⟩ := h.left.origin hw
    obtain ⟨y,hy,-⟩ := h.right.vertex hw₀
    exact h.merged_vertex hw₀ hu.1 (honly _ _ hy)
  have hedge : ∀ {e}, ¬p.IsEdge e := by
    intro e he
    obtain ⟨y,hy,-⟩ := id (h.edge he)
    exact (h.edge he).not_isVertex (honly _ _ hy ▸ hv.isVertex)
  have hroot : ∀ {c C}, p.container? c = some C → c = .root := by
    intro c C hC
    by_contra hne
    have hgone : z.container? c = none := by
      by_contra hsome
      obtain ⟨D,hD⟩ := Option.ne_none_iff_exists'.mp hsome
      exact hne (hcontainer c D hD)
    rw [h.container_gone hp hz hgone hne] at hC
    cases hC
  obtain ⟨R,hR,-⟩ := hq.nested.root
  obtain ⟨y,hy,hys⟩ := id hs
  obtain ⟨d,D,hd,hD⟩ := hq.itemOwner hy
  rw [hroot hD] at hd
  refine consolidated_iff.mpr ⟨R,f u,y,hR,vertices_eq hq hR hs.isVertex hd fun hw _ => hvertex hw,
    edges_eq hq hR fun he => absurd he hedge,?_,constraints_eq hR fun k => ?_,hy,hys⟩
  · refine List.eq_nil_iff_forall_not_mem.mpr fun c hc => ?_
    obtain ⟨C,hC,hparent⟩ := hq.nested.child hR hc
    obtain ⟨R',hR',hnoparent⟩ := hq.nested.root
    rw [hroot hC,hR'] at hC
    cases hC
    rw [hnoparent] at hparent
    cases hparent
  · refine h.not_declared_of_enforced hp hz ?_
    rw [hnone]
    exact List.not_mem_nil

end Calm

/-! ## Solving a query that is ahead -/

/-- A query that is ahead can be calmed, and it stays ahead. -/
theorem exists_calm : ∃ p' f', Relation.ReflTransGen ReducesTo p p' ∧ Ahead q₀ p' z f' g ∧ p'.Calm := by
  induction hw : p.weight using Nat.strongRecOn generalizing p f with
  | ind n ih =>
    by_cases hc : p.Calm
    · exact ⟨p,f,.refl,h,hc⟩
    · simp only [Query.Calm,not_forall] at hc
      obtain ⟨rule,a,p',out,hr,hrule⟩ := hc
      have hlt := hr.weight_lt h.left.wellFormed
      obtain ⟨p'',f'',hp'',h'',hc''⟩ := ih _ (hw ▸ hlt) (h.forward hr hrule) rfl
      exact ⟨p'',f'',.head ⟨rule,a,out,hr⟩ hp'',h'',hc''⟩

/-- A query that is ahead of one that can be solved can be solved. -/
theorem solvable (hs : z.Solvable) : p.Solvable := by
  obtain ⟨u,hu,hcon⟩ := hs
  induction hu using Relation.ReflTransGen.head_induction_on generalizing p f g with
  | refl =>
    obtain ⟨p',f',hp',h',hc'⟩ := h.exists_calm
    have hz : u.Solvable := ⟨u,.refl,hcon⟩
    exact ⟨p',hp',h'.consolidated hc' (hz.orderly h.right.wellFormed h.right.flat) hcon⟩
  | @head z z' hr hu ih =>
    have hz : z.Solvable := ⟨u,.head hr hu,hcon⟩
    obtain ⟨rule,a,out,hr⟩ := hr
    obtain ⟨p',f',hp',h',hc'⟩ := h.exists_calm
    obtain ⟨p'',f'',g'',hp'',h''⟩ :=
      h'.follow hc' (hz.orderly h.right.wellFormed h.right.flat) hr
    exact (ih h'').of_reflTransGen (hp'.trans hp'')

end Ahead

/-! ## Queries with the same content -/

section Content

variable (h₀ : q₀.Regular) (hp : q₀.Descends p f) (hz : q₀.Descends z g)

/-- Queries with the same content have the same classes and names of items. -/
theorem exists_same_names (hc : p.content = z.content) {i : ItemId} {x : Item}
    (hx : p.item? i = some x) : ∃ j y, z.item? j = some y ∧ y.names = x.names ∧ y.kind = x.kind := by
  have hm : x.identity ∈ p.content.items :=
    List.mem_map_of_mem (p.sortedItems_perm.mem_iff.mpr (Arena.mem_live.mpr ⟨i.index,hx⟩))
  rw [hc] at hm
  obtain ⟨y,hy,he⟩ := List.mem_map.mp hm
  obtain ⟨j,hj⟩ := Arena.mem_live.mp (z.sortedItems_perm.mem_iff.mp hy)
  exact ⟨⟨j⟩,y,hj,congrArg ItemIdentity.names he,congrArg ItemIdentity.kind he⟩

include h₀ hp hz

theorem merged_of_names (hn : ∀ {i x}, z.item? i = some x → ∃ j y, p.item? j = some y ∧ y.names = x.names)
    {i j : ItemId} {x y : Item} (hx : q₀.item? i = some x) (hy : q₀.item? j = some y)
    (he : g i = g j) : f i = f j := by
  obtain ⟨w,hw⟩ := hz.live h₀.wellFormed hx
  obtain ⟨k,r,hr,hrn⟩ := hn hw
  -- The item with the same names has both names.
  have hplace : ∀ {i x}, q₀.item? i = some x → z.item? (g i) = some w → f i = k := by
    intro i x hx hw
    obtain ⟨n,hni⟩ := List.exists_mem_of_ne_nil _ (h₀.wellFormed.named.named hx).nonempty
    have hni : n ∈ q₀.itemNames i := mem_itemNames.mpr ⟨x,hx,hni⟩
    have hnz := hz.names_place hni
    rw [itemNames_of_some hw,← hrn] at hnz
    obtain ⟨t,ht,hnt⟩ := mem_itemNames.mp (hp.names_place hni)
    exact hp.wellFormed.named.disjoint ht hr hnt hnz
  rw [hplace hx hw,hplace hy (he ▸ hw)]

/-- Queries with the same content are ahead of each other. -/
theorem ahead_of_content (ho : q₀.Orderly) (hc : p.content = z.content) : Ahead q₀ p z f g where
  regular := h₀
  orderly := ho
  left := hp
  right := hz
  merged := merged_of_names h₀ hp hz fun hx => by
    obtain ⟨j,y,hy,hn,-⟩ := exists_same_names hc.symm hx
    exact ⟨j,y,hy,hn⟩
  edge {e} he := by
    obtain ⟨y,hy,hyv⟩ := id he
    obtain ⟨k,w,hw,hwn,hwk⟩ := exists_same_names hc hy
    have hk : z.IsEdge k := by
      obtain ⟨ends,hends⟩ := Item.not_isVertex_iff.mp hyv
      rw [Item.kind_edge_iff.mpr ⟨ends,hends⟩] at hwk
      exact ⟨w,hw,Item.not_isVertex_iff.mpr (Item.kind_edge_iff.mp hwk)⟩
    -- The edge with the same names is the same edge.
    obtain ⟨n,hn⟩ := List.exists_mem_of_ne_nil _ (hp.wellFormed.named.named hy).nonempty
    obtain ⟨x,hx,hnx⟩ := mem_itemNames.mp (hp.edge_names h₀ he (mem_itemNames.mpr ⟨y,hy,hn⟩))
    obtain ⟨x',hx',hnx'⟩ := mem_itemNames.mp
      (hz.edge_names h₀ hk (mem_itemNames.mpr ⟨w,hw,hwn ▸ hn⟩))
    exact h₀.wellFormed.named.disjoint hx hx' hnx hnx' ▸ hk
  apart he he' hv hu hvu := by
    obtain ⟨x,hx,-⟩ := hv.isVertex h₀.wellFormed
    obtain ⟨y,hy,-⟩ := hu.isVertex h₀.wellFormed
    refine merged_of_names h₀ hz hp (fun hx => ?_) hx hy hvu
    obtain ⟨j,y,hy,hn,-⟩ := exists_same_names hc hx
    exact ⟨j,y,hy,hn⟩

end Content

/-- Reductions from a regular query keep the places of its items. -/
theorem exists_descends (h₀ : q₀.Regular) (hs : q₀.Settling)
    (hp : Relation.ReflTransGen ReducesTo q₀ p) : ∃ f, q₀.Descends p f := by
  induction hp with
  | refl => exact ⟨id,.refl h₀.wellFormed h₀.flat hs⟩
  | tail _ hr ih =>
    obtain ⟨f,hf⟩ := ih
    obtain ⟨rule,a,out,hr⟩ := hr
    exact ⟨_,hf.step hr⟩

/-- Of two queries with the same content that reductions lead to from a regular query, none can be
solved unless both can. -/
theorem Solvable.of_content (h₀ : q₀.Regular) (hp : Relation.ReflTransGen ReducesTo q₀ p)
    (hz : Relation.ReflTransGen ReducesTo q₀ z) (hc : p.content = z.content) (hs : z.Solvable) :
    p.Solvable := by
  have h₀s := Solvable.of_reflTransGen hz hs
  have hset := h₀s.settling h₀.wellFormed
  obtain ⟨f,hf⟩ := exists_descends h₀ hset hp
  obtain ⟨g,hg⟩ := exists_descends h₀ hset hz
  exact (ahead_of_content h₀ hf hg (h₀s.orderly h₀.wellFormed h₀.flat) hc).solvable hs

end GraphPattern.Query
