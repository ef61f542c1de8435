import GraphPattern.Proofs.Rule.Inheritance

/-!
# Where the items of a query end up

An annotated vertex and an annotated subquery hang on the rest of a query by an edge. In a query that
reductions lead to, everything of a subquery is in one place once something of it is in a place with
something from outside, and a vertex without annotation that holds nothing but items of an annotated
subquery still lies in that subquery.
-/

namespace GraphPattern

namespace Query

variable {q : Query} {N M : Set String} {e i j v u : ItemId} {t : Bool} {c d : ContainerId}

/-- The item lies in the container: a vertex that the container owns, or an edge that ends nowhere
else. -/
def Inner (q : Query) (c : ContainerId) (i : ItemId) : Prop :=
  (q.IsVertex i ∧ q.itemOwner i = some c) ∨
    (q.IsEdge i ∧ ∀ t v, q.Ends i t v → q.itemOwner v = some c)

/-- The edge leads out of the container, in which it has this end. -/
def Crosses (q : Query) (e : ItemId) (t : Bool) (c : ContainerId) : Prop :=
  ∃ v u, q.Ends e t v ∧ q.Ends e (!t) u ∧ q.itemOwner v = some c ∧ q.itemOwner u ≠ some c

/-- The item has one of the names. -/
def Among (q : Query) (N : Set String) (i : ItemId) : Prop := ∃ n ∈ q.itemNames i, n ∈ N

/-- Some of the names are those of items that do not lie in the container. -/
def Beyond (q : Query) (N : Set String) (c : ContainerId) : Prop := ∃ i, q.Among N i ∧ ¬q.Inner c i

/-- The item lies in an annotated subquery out of which the names reach. -/
def Hidden (q : Query) (N : Set String) (i : ItemId) : Prop :=
  ∃ c, q.subqueryBounds c ≠ none ∧ q.Inner c i ∧ q.Beyond N c

/-- What hangs at an end of an edge. -/
inductive Limb where
  /-- A vertex. -/
  | vertex (u : ItemId)
  /-- Everything that lies in a subquery. -/
  | subquery (c : ContainerId)

namespace Limb

/-- How often it may occur. -/
def bounds (q : Query) : Limb → Option Annotation
  | vertex u => q.itemBounds u
  | subquery c => q.subqueryBounds c

/-- The items of which it consists. -/
def Holds (q : Query) : Limb → ItemId → Prop
  | vertex u, i => i = u ∧ q.IsVertex u
  | subquery c, i => q.Inner c i

/-- Their names. -/
def names (q : Query) (l : Limb) : Set String := {n | ∃ i, l.Holds q i ∧ n ∈ q.itemNames i}

end Limb

/-- At an end of an edge hangs an annotated subquery out of which the edge leads, or else an
annotated vertex. -/
inductive Leads (q : Query) (e : ItemId) (t : Bool) : Limb → Prop
  /-- The edge leads out of an annotated subquery. -/
  | subquery {c : ContainerId} (crosses : q.Crosses e t c) (bounds : q.subqueryBounds c ≠ none) :
    Leads q e t (.subquery c)
  /-- It leads out of none, and the vertex is annotated. -/
  | vertex {u : ItemId} (ends : q.Ends e t u) (bounds : q.itemBounds u ≠ none)
    (inside : ∀ c, q.Crosses e t c → q.subqueryBounds c = none) : Leads q e t (.vertex u)

theorem Crosses.unique (h : q.Crosses e t c) (h' : q.Crosses e t d) : c = d := by
  obtain ⟨v,u,hv,-,hc,-⟩ := h
  obtain ⟨v',u',hv',-,hd,-⟩ := h'
  rw [hv'.unique hv,hc] at hd
  exact Option.some.inj hd

/-- One thing hangs at an end. -/
theorem Leads.unique {l m : Limb} (h : q.Leads e t l) (h' : q.Leads e t m) : l = m := by
  cases h with
  | subquery hc hb => cases h' with
    | subquery hd _ => rw [hc.unique hd]
    | vertex _ _ hin => exact absurd (hin _ hc) hb
  | vertex hv _ hin => cases h' with
    | subquery hd hb => exact absurd (hin _ hd) hb
    | vertex hu _ _ => rw [hv.unique hu]

theorem Leads.bounds {l : Limb} (h : q.Leads e t l) : l.bounds q ≠ none := by
  cases h with
  | subquery _ hb => exact hb
  | vertex _ hb _ => exact hb

/-- Something hangs at an end of an edge exactly if something is annotated there. -/
theorem Orderly.annotatedAt_iff (ho : q.Orderly) (hc : q.Closed) :
    q.AnnotatedAt e t ↔ ∃ l, q.Leads e t l := by
  constructor
  · rintro ⟨v,u,hv,hu,hne,h⟩
    by_cases hcross : ∃ c, q.Crosses e t c ∧ q.subqueryBounds c ≠ none
    · obtain ⟨c,hx,hb⟩ := hcross
      exact ⟨_,.subquery hx hb⟩
    · rcases h with hb|⟨c,hvc,huc,hb⟩
      · exact ⟨_,.vertex hv hb fun c hx => by_contra fun hb' => hcross ⟨c,hx,hb'⟩⟩
      · exact absurd ⟨c,⟨v,u,hv,hu,hvc,huc⟩,hb⟩ hcross
  · rintro ⟨l,h⟩
    cases h with
    | subquery hx hb =>
      obtain ⟨v,u,hv,hu,hvc,huc⟩ := hx
      exact ⟨v,u,hv,hu,fun hvu => huc (hvu ▸ hvc),.inr ⟨_,hvc,huc,hb⟩⟩
    | vertex hv hb hin =>
      obtain ⟨u,hu⟩ := hc hv.isEdge (!t)
      refine ⟨_,u,hv,hu,?_,.inl hb⟩
      rintro rfl
      cases t with
      | true => exact hb (ho.loopless hv hu)
      | false => exact hb (ho.loopless hu hv)

/-- At one end of an edge only something hangs. -/
theorem Orderly.leads_unique (ho : q.Orderly) (hc : q.Closed) {t' : Bool} {l m : Limb}
    (h : q.Leads e t l) (h' : q.Leads e t' m) : t' = t ∧ m = l := by
  rcases Rule.eq_or_opposite t t' with rfl|rfl
  · exact ⟨rfl,h'.unique h⟩
  · exact absurd ((ho.annotatedAt_iff hc).mpr ⟨l,h⟩)
      (ho.oneSided ((ho.annotatedAt_iff hc).mpr ⟨m,h'⟩))

theorem Inner.live (h : q.Inner c i) : ∃ x, q.item? i = some x := by
  rcases h with ⟨⟨x,hx,-⟩,-⟩|⟨⟨x,hx,-⟩,-⟩
  · exact ⟨x,hx⟩
  · exact ⟨x,hx⟩

theorem Among.mono (h : q.Among N i) (hNM : N ⊆ M) : q.Among M i := by
  obtain ⟨n,hn,hN⟩ := h
  exact ⟨n,hn,hNM hN⟩

/-- More names reach as far. -/
theorem Beyond.mono (h : q.Beyond N c) (hNM : N ⊆ M) : q.Beyond M c := by
  obtain ⟨i,hi,hc⟩ := h
  exact ⟨i,hi.mono hNM,hc⟩

/-- An item has a name. -/
theorem WellFormed.exists_name (h : q.WellFormed) {x : Item} (hx : q.item? i = some x) :
    ∃ n, n ∈ q.itemNames i := by
  obtain ⟨n,hn⟩ := List.exists_mem_of_ne_nil _ (h.named.named hx).nonempty
  exact ⟨n,mem_itemNames.mpr ⟨x,hx,hn⟩⟩

/-- The item with a name. -/
theorem WellFormed.eq_of_name (h : q.WellFormed) {n : String} (hi : n ∈ q.itemNames i)
    (hj : n ∈ q.itemNames j) : i = j := by
  obtain ⟨x,hx,hnx⟩ := mem_itemNames.mp hi
  obtain ⟨y,hy,hny⟩ := mem_itemNames.mp hj
  exact h.named.disjoint hx hy hnx hny

/-- A name of an edge is not one of a vertex. -/
theorem WellFormed.not_mem_itemNames (h : q.WellFormed) {n : String} (he : q.IsEdge e)
    (hv : q.IsVertex v) (hn : n ∈ q.itemNames e) : n ∉ q.itemNames v := fun hnv =>
  he.not_isVertex (h.eq_of_name hn hnv ▸ hv)

namespace Descends

variable {q₀ : Query} {f : ItemId → ItemId} {s : Bool}

/-- The items with the names of an item are those that are in its place. -/
theorem among_iff (h : q₀.Descends q f) (h₀ : q₀.WellFormed) :
    q₀.Among {n | n ∈ q.itemNames j} i ↔ f i = j ∧ ∃ x, q₀.item? i = some x := by
  constructor
  · rintro ⟨n,hn,hj⟩
    obtain ⟨i',hi',hn'⟩ := h.names.mp hj
    obtain ⟨x,hx,-⟩ := mem_itemNames.mp hn
    exact ⟨h₀.eq_of_name hn hn' ▸ hi',x,hx⟩
  · rintro ⟨hi,x,hx⟩
    obtain ⟨n,hn⟩ := h₀.exists_name hx
    exact ⟨n,hn,h.names.mpr ⟨i,hi,hn⟩⟩

/-- An edge in the place of a vertex is gone. -/
theorem not_isEdge_place (h : q₀.Descends q f) (hv : q.IsVertex v) (hi : f i = v) :
    ¬q.IsEdge i := fun he => by
  rw [(h.edge he).2] at hi
  exact he.not_isVertex (hi ▸ hv)

/-- Its ends are there as well. -/
theorem ends_of_place (h : q₀.Descends q f) (hv : q.IsVertex v) (hi : f i = v)
    (hu : q₀.Ends i s u) : f u = v :=
  (h.gone (h.not_isEdge_place hv hi) hu).trans hi

section Regular

variable (h₀ : q₀.Regular) (h : q₀.Descends q f)

include h₀ h

/-- What lay in a subquery that is gone is in one place. -/
theorem inner_place (hc : q.container? c = none) (hv : q₀.IsVertex v)
    (hvc : q₀.itemOwner v = some c) (hi : q₀.Inner c i) : f i = f v := by
  obtain ⟨x,hx,-⟩ := id hv
  obtain ⟨d,C,hd,hC⟩ := h₀.wellFormed.itemOwner hx
  rw [hvc] at hd
  cases hd
  obtain ⟨u,-,hj⟩ := h.joined hC hc
  rcases hi with ⟨hi,hic⟩|⟨hi,hin⟩
  · rw [hj hi hic,hj hv hvc]
  · obtain ⟨w,hw⟩ := h₀.closed hi true
    rw [← h.gone (h.not_isEdge h₀ hc fun {s v} hv => hin s v hv) hw,
      hj (hw.isVertex h₀.wellFormed) (hin _ _ hw),hj hv hvc]

/-- If an edge that led out of a subquery is in the place of a vertex, so is everything of the
subquery, and the subquery is gone. -/
theorem crosses_place (hv : q.IsVertex v) (hi : f i = v) (hx : q₀.Crosses i t c) (hc : c ≠ .root) :
    q.container? c = none ∧ ∀ {j}, q₀.Inner c j → f j = v := by
  obtain ⟨a,b,ha,hb,hac,hbc⟩ := hx
  have hav := ha.isVertex h₀.wellFormed
  have hfa := h.ends_of_place hv hi ha
  have hfb := h.ends_of_place hv hi hb
  have hgone : q.container? c = none := by
    by_contra hne
    obtain ⟨C,hC⟩ := Option.ne_none_iff_exists'.mp hne
    have ha' := (h.home hC hc hav).mpr hac
    rw [hfa,← hfb] at ha'
    exact hbc ((h.home hC hc (hb.isVertex h₀.wellFormed)).mp ha')
  exact ⟨hgone,fun hj => (h.inner_place h₀ hgone hav hac hj).trans hfa⟩

/-- An edge of a subquery that is annotated still ends there. -/
theorem owner_of_ends (he : q.Ends e s v) (hb : q₀.subqueryBounds c ≠ none) (hin : q₀.Inner c e) :
    q.itemOwner v = some c := by
  have hroot : c ≠ .root := fun hr => hb (hr ▸ h₀.wellFormed.subqueryBounds_root)
  obtain ⟨u,hu,rfl⟩ := h.exists_end he
  rcases hin with ⟨hv,-⟩|⟨-,hin⟩
  · exact absurd hv hu.isEdge.not_isVertex
  · have hlive : q.container? c ≠ none := fun hgone =>
      h.not_isEdge h₀ hgone (fun {s v} hv => hin s v hv) he.isEdge
    obtain ⟨C,hC⟩ := Option.ne_none_iff_exists'.mp hlive
    exact (h.home hC hroot (hu.isVertex h₀.wellFormed)).mpr (hin _ _ hu)

/-- Everything in the place of a vertex of a subquery lay in it. -/
theorem inner_of_owner {C : Container} (hC : q.container? c = some C) (hc : c ≠ .root)
    (hv : q.IsVertex v) (hvc : q.itemOwner v = some c) {x : Item} (hx : q₀.item? i = some x)
    (hi : f i = v) : q₀.Inner c i := by
  cases hxv : x.isVertex with
  | true => exact .inl ⟨⟨x,hx,hxv⟩,(h.home hC hc ⟨x,hx,hxv⟩).mp (hi ▸ hvc)⟩
  | false => exact .inr ⟨⟨x,hx,hxv⟩,fun t u hu => (h.home hC hc (hu.isVertex h₀.wellFormed)).mp
      (h.ends_of_place hv hi hu ▸ hvc)⟩

/-- A vertex lies in the subquery in which something in its place lay, as long as that is there. -/
theorem owner_of_place {C : Container} (hC : q.container? c = some C) (hc : c ≠ .root)
    (hv : q.IsVertex v) (hi : f i = v) (hin : q₀.Inner c i) : q.itemOwner v = some c := by
  rcases hin with ⟨hiv,hic⟩|⟨hie,hin⟩
  · exact hi ▸ (h.home hC hc hiv).mpr hic
  · obtain ⟨w,hw⟩ := h₀.closed hie true
    rw [← h.ends_of_place hv hi hw]
    exact (h.home hC hc (hw.isVertex h₀.wellFormed)).mpr (hin _ _ hw)

/-- If everything in the place of a vertex without annotation lay in an annotated subquery, then the
vertex lies there. -/
theorem owner_of_inner (ho : q₀.Orderly) (hv : q.IsBare v) (hb : q₀.subqueryBounds c ≠ none)
    (hin : ∀ {i x}, q₀.item? i = some x → f i = v → q₀.Inner c i) : q.itemOwner v = some c := by
  have hroot : c ≠ .root := fun hr => hb (hr ▸ h₀.wellFormed.subqueryBounds_root)
  obtain ⟨u,hu,huv⟩ := h.origin hv.1
  have huc : q₀.itemOwner u = some c := by
    obtain ⟨x,hx,-⟩ := id hu
    rcases hin hx huv with ⟨-,hc⟩|⟨he,-⟩
    · exact hc
    · exact absurd hu he.not_isVertex
  cases hC : q.container? c with
  | some C => exact huv ▸ (h.home hC hroot hu).mpr huc
  | none =>
    -- An edge leads out of the subquery. If it is gone, its other end is here as well.
    obtain ⟨e,t,a,b,ha,hb',hac,hbc⟩ := ho.crossed hb
    have hav := ha.isVertex h₀.wellFormed
    have hfa : f a = v := (h.inner_place h₀ hC hu huc (.inl ⟨hav,hac⟩)).trans huv
    by_cases he : q.IsEdge e
    · obtain ⟨a',b',ha',hb'',-,hann⟩ := (h.annotatedAt he).mpr
        ⟨a,b,ha,hb',fun hab => hbc (hab ▸ hac),.inr ⟨c,hac,hbc,hb⟩⟩
      rw [(h.ends_place he ha).unique ha'] at hfa
      rw [hfa] at hann
      rcases hann with hann|⟨d,hd,-,hdb⟩
      · exact absurd hv.2 hann
      · have hdroot : d ≠ .root := fun hr => hdb (hr ▸ h.wellFormed.subqueryBounds_root)
        obtain ⟨y,hy,-⟩ := hv.1
        obtain ⟨d',D,hd',hD⟩ := h.wellFormed.itemOwner hy
        rw [hd] at hd'
        cases hd'
        rw [← huv,h.home hD hdroot hu,huc] at hd
        cases hd
        rw [hC] at hD
        cases hD
    · obtain ⟨y,hy,-⟩ := hb'.isVertex h₀.wellFormed
      have hfb := (h.gone he hb').trans ((h.gone he ha).symm.trans hfa)
      rcases hin hy hfb with ⟨-,hbc'⟩|⟨hbe,-⟩
      · exact absurd hbc' hbc
      · exact absurd (hb'.isVertex h₀.wellFormed) hbe.not_isVertex

/-- The names of a vertex without annotation reach out of the annotated subqueries in which it does
not lie. -/
theorem beyond_iff (ho : q₀.Orderly) (hv : q.IsBare v) (hb : q₀.subqueryBounds c ≠ none) :
    q₀.Beyond {n | n ∈ q.itemNames v} c ↔ q.itemOwner v ≠ some c := by
  have hroot : c ≠ .root := fun hr => hb (hr ▸ h₀.wellFormed.subqueryBounds_root)
  constructor
  · rintro ⟨i,hi,hic⟩ hvc
    obtain ⟨y,hy,-⟩ := hv.1
    obtain ⟨d,D,hd,hD⟩ := h.wellFormed.itemOwner hy
    rw [hvc] at hd
    cases hd
    obtain ⟨hi,x,hx⟩ := (h.among_iff h₀.wellFormed).mp hi
    exact hic (h.inner_of_owner h₀ hD hroot hv.1 hvc hx hi)
  · intro hvc
    by_contra hbeyond
    refine hvc (h.owner_of_inner h₀ ho hv hb fun {i x} hx hi => ?_)
    by_contra hic
    exact hbeyond ⟨i,(h.among_iff h₀.wellFormed).mpr ⟨hi,x,hx⟩,hic⟩

/-- What is left of a subquery is what lay in it. -/
theorem place_iff_of_left (hl : q₀.Left q f c v) (hv : q.IsVertex v) {x : Item}
    (hx : q₀.item? i = some x) : f i = v ↔ q₀.Inner c i := by
  constructor
  · intro hi
    cases hxv : x.isVertex with
    | true => exact .inl ⟨⟨x,hx,hxv⟩,(hl.fiber ⟨x,hx,hxv⟩).mp hi⟩
    | false => exact .inr ⟨⟨x,hx,hxv⟩,fun t u hu => (hl.fiber (hu.isVertex h₀.wellFormed)).mp
        (h.ends_of_place hv hi hu)⟩
  · rintro (⟨hi,hic⟩|⟨hi,hin⟩)
    · exact (hl.fiber hi).mpr hic
    · obtain ⟨w,hw⟩ := h₀.closed hi true
      rw [← h.gone (h.not_isEdge h₀ hl.gone fun {s v} hv => hin s v hv) hw]
      exact (hl.fiber (hw.isVertex h₀.wellFormed)).mpr (hin _ _ hw)

/-- An annotated vertex that is absorbed along an edge is what hung there. -/
theorem limb (ha : q.Absorbs v e s u) :
    (q₀.Kept q f u ∧ q₀.Leads e s (.vertex u)) ∨
      ∃ c, q₀.Left q f c u ∧ q₀.Leads e s (.subquery c) := by
  obtain ⟨u₀,hu₀,hfu⟩ := h.exists_end ha.far
  obtain ⟨v₀,hv₀,hfv⟩ := h.exists_end ha.near
  have huv := hu₀.isVertex h₀.wellFormed
  have hvv := hv₀.isVertex h₀.wellFormed
  rcases h.annotated (ha.far.isVertex h.wellFormed) ha.annotated with hk|⟨c,hl⟩
  · obtain ⟨x,hx,-⟩ := id huv
    have hplace := hk.only hx hfu
    subst hplace
    refine .inl ⟨hk,.vertex hu₀ (hk.bounds ▸ ha.annotated) fun c hx => ?_⟩
    obtain ⟨a,b,ha',hb',hac,hbc⟩ := hx
    rw [ha'.unique hu₀] at hac
    rw [hb'.unique hv₀] at hbc
    by_contra hb
    have hroot : c ≠ .root := fun hr => hb (hr ▸ h₀.wellFormed.subqueryBounds_root)
    cases hC : q.container? c with
    | some C =>
      refine hbc ((h.home hC hroot hvv).mp ?_)
      rw [hfv,ha.together,← hfu]
      exact (h.home hC hroot huv).mpr hac
    | none =>
      obtain ⟨d,D,hd,hD⟩ := h₀.wellFormed.itemOwner hx
      rw [hac] at hd
      cases hd
      obtain ⟨w,hw,hj⟩ := h.joined hD hC
      obtain ⟨z,hz,-⟩ := hw.1
      have hwu := hk.only hz ((hj huv hac).symm.trans hfu)
      exact ha.annotated (hk.bounds.trans (hwu ▸ hw.2))
  · refine .inr ⟨c,hl,.subquery ⟨u₀,v₀,hu₀,hv₀,(hl.fiber huv).mp hfu,fun hvc => ?_⟩ hl.bounds.1⟩
    exact ha.ne (hfv.symm.trans ((hl.fiber hvv).mpr hvc))

/-- It has the names of what hung there. -/
theorem limb_names (ha : q.Absorbs v e s u) : ∃ l, q₀.Leads e s l ∧
    l.bounds q₀ = q.itemBounds u ∧ {n | n ∈ q.itemNames u} = l.names q₀ := by
  have huv := ha.far.isVertex h.wellFormed
  have hnames : ∀ {l : Limb}, (∀ {i x}, q₀.item? i = some x → (f i = u ↔ l.Holds q₀ i)) →
      {n | n ∈ q.itemNames u} = l.names q₀ := fun {l} hl => by
    ext n
    constructor
    · intro hn
      obtain ⟨i,hi,hn⟩ := h.names.mp hn
      obtain ⟨x,hx,-⟩ := mem_itemNames.mp hn
      exact ⟨i,(hl hx).mp hi,hn⟩
    · rintro ⟨i,hi,hn⟩
      obtain ⟨x,hx,-⟩ := mem_itemNames.mp hn
      exact h.names.mpr ⟨i,(hl hx).mpr hi,hn⟩
  rcases h.limb h₀ ha with ⟨hk,hl⟩|⟨c,hleft,hl⟩
  · refine ⟨_,hl,hk.bounds.symm,hnames fun {i x} hx => ⟨fun hi => ⟨hk.only hx hi,hk.vertex⟩,?_⟩⟩
    rintro ⟨rfl,-⟩
    exact hk.place
  · exact ⟨_,hl,hleft.bounds.2.symm,hnames fun hx => h.place_iff_of_left h₀ hleft huv hx⟩

end Regular

end Descends

end Query

end GraphPattern
