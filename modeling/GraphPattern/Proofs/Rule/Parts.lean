import GraphPattern.Proofs.Rule.Ends

/-!
# What takes part in a reduction

An edge goes in one of three ways: as a self-loop, between two vertices that have no annotation, or
together with an annotated vertex at which no other edge ends. That last way is the only one in
which an annotated vertex goes.
-/

namespace GraphPattern

theorem EdgeEnds.nameAmong?_isSome {ends : EdgeEnds} {names : List String} :
    (ends.nameAmong? names).isSome = true ↔ ends.sourceName ∈ names ∨ ends.targetName ∈ names := by
  rw [nameAmong?]
  by_cases hs : ends.sourceName ∈ names
  · simp [hs]
  · by_cases ht : ends.targetName ∈ names <;> simp [hs,ht]

namespace Query

variable {q : Query} {e v u : ItemId} {s : Bool}

/-- The marker of the item of a number. -/
def itemMarker (q : Query) (i : ItemId) : Option Provenance := (q.item? i).bind Item.provenance

/-- The names of the item of a number. -/
def itemNames (q : Query) (i : ItemId) : List String := (q.item? i).elim [] Item.names

/-- A name written for an end of an edge has a property. -/
def NamedAt (q : Query) (e : ItemId) (P : String → Prop) : Prop :=
  ∃ y ends, q.item? e = some y ∧ y.ends? = some ends ∧ (P ends.sourceName ∨ P ends.targetName)

/-- A vertex that owes nothing. -/
def SettledAt (q : Query) (v : ItemId) : Prop := ∃ x, q.item? v = some x ∧ Rule.Settled x

/-- An annotated vertex that the vertex at the other end of an annotated edge can absorb. -/
structure Absorbs (q : Query) (v e : ItemId) (s : Bool) (u : ItemId) : Prop where
  /-- The annotated vertex is here. -/
  far : q.Ends e s u
  /-- The other one is at the other end. -/
  near : q.Ends e (!s) v
  /-- They are different. -/
  ne : v ≠ u
  /-- The one is annotated. -/
  annotated : q.itemBounds u ≠ none
  /-- The other one is settled. -/
  settled : q.SettledAt v
  /-- They lie together. -/
  together : q.itemOwner v = q.itemOwner u
  /-- The edge is annotated. -/
  edge : q.itemBounds e ≠ none
  /-- Neither the edge nor the annotated vertex is marked. -/
  unmarked : q.itemMarker e = none ∧ q.itemMarker u = none
  /-- No other edge ends at the annotated vertex. -/
  alone : ∀ {f t}, q.Ends f t u → f = e
  /-- An upper bound can be kept. -/
  named : ∀ {b}, q.itemBounds u = some b → b.max.isSome = true → q.NamedAt e (· ∈ q.itemNames u)

theorem itemMarker_of_some {x : Item} (h : q.item? v = some x) : q.itemMarker v = x.provenance := by
  rw [itemMarker,h]
  rfl

theorem itemNames_of_some {x : Item} (h : q.item? v = some x) : q.itemNames v = x.names := by
  rw [itemNames,h]
  rfl

theorem mem_itemNames {n : String} : n ∈ q.itemNames v ↔ ∃ x, q.item? v = some x ∧ n ∈ x.names := by
  rw [itemNames]
  cases q.item? v <;> simp

theorem NamedAt.imp {P P' : String → Prop} (h : q.NamedAt e P) (hP : ∀ n, P n → P' n) :
    q.NamedAt e P' := by
  obtain ⟨y,ends,hy,he,h⟩ := h
  exact ⟨y,ends,hy,he,h.imp (hP _) (hP _)⟩

theorem SettledAt.itemBounds (h : q.SettledAt v) : q.itemBounds v = none := by
  obtain ⟨x,hx,hs⟩ := h
  rw [itemBounds_of_some hx,hs.bounds]

theorem SettledAt.isVertex (h : q.SettledAt v) : q.IsVertex v := by
  obtain ⟨x,hx,hs⟩ := h
  exact ⟨x,hx,Item.isVertex_of_kind (.inr hs.kind)⟩

/-- Between vertices of one container, nothing is annotated at the end of a vertex that is not. -/
theorem not_annotatedAt (hv : q.Ends e s v) (hu : q.Ends e (!s) u) (hb : q.itemBounds v = none)
    (ho : q.itemOwner v = q.itemOwner u) : ¬q.AnnotatedAt e s := by
  rintro ⟨v',u',hv',hu',-,h⟩
  cases hv.unique hv'
  cases hu.unique hu'
  rcases h with h|⟨c,hc,hc',-⟩
  · exact h hb
  · exact hc' (ho ▸ hc)

namespace Absorbs

theorem annotatedAt (h : q.Absorbs v e s u) : q.AnnotatedAt e s :=
  ⟨u,v,h.far,h.near,h.ne.symm,.inl h.annotated⟩

theorem not_annotatedAt (h : q.Absorbs v e s u) : ¬q.AnnotatedAt e (!s) :=
  Query.not_annotatedAt h.near (by rw [Bool.not_not]; exact h.far) h.settled.itemBounds h.together

end Absorbs

end Query

namespace Rule

open Query

variable {q q' : Query} {items : List ItemId} {out : ItemId} {e v u : ItemId} {s : Bool}
  {rule : Rule} {a : Application}

/-- What a change is not about keeps its names, its annotation and its marker. -/
theorem Changes.same (hc : Changes q q' items out) {x : Item} (hx : q.item? v = some x)
    (hm : v ∉ items) : q'.itemNames v = q.itemNames v ∧ q'.itemBounds v = q.itemBounds v ∧
      q'.itemMarker v = q.itemMarker v := by
  obtain ⟨-,y,hy,hf⟩ := hc.forth hx hm
  rw [itemNames_of_some hx,itemNames_of_some hy,itemBounds_of_some hx,itemBounds_of_some hy,
    itemMarker_of_some hx,itemMarker_of_some hy]
  exact ⟨hf.names,hf.bounds,hf.provenance⟩

/-- What comes out is a composite vertex. -/
theorem Changes.kind_out (hc : Changes q q' items out) {y : Item} (hy : q'.item? out = some y) :
    y.kind = .composite := by
  obtain ⟨z,hz,hk,-⟩ := hc.out
  rw [hy] at hz
  cases hz
  exact hk

/-- What comes out has the names of everything that the change is about. -/
theorem Changes.itemNames_out (hc : Changes q q' items out) {n : String} :
    n ∈ q'.itemNames out ↔ ∃ i ∈ items, n ∈ q.itemNames i := by
  obtain ⟨y,hy,-,hn⟩ := hc.out
  rw [itemNames_of_some hy,hn]
  simp only [mem_itemNames]

/-- The names written for the ends of an edge stay. -/
theorem Changes.namedAt (hc : Changes q q' items out) {P : String → Prop} :
    q'.NamedAt e P ↔ q.NamedAt e P ∧ e ∉ items := by
  constructor
  · rintro ⟨y,ends,hy,he,h⟩
    obtain ⟨hm,x,ends₀,hx,he₀,rfl,-⟩ := hc.edge_back hy he
    exact ⟨⟨x,ends₀,hx,he₀,h⟩,hm⟩
  · rintro ⟨⟨x,ends,hx,he,h⟩,hm⟩
    obtain ⟨-,y,hy,hf⟩ := hc.forth hx hm
    exact ⟨y,ends.follow items out,hy,by rw [hf.ends,he]; rfl,h⟩

/-- The edge and the two vertices of an absorption. -/
theorem absorbable_ends {x y w : Item} {ends : EdgeEnds} {edges : List ItemId} {c d : ContainerId}
    (able : q.Absorbable e u v y w x ends edges c d) :
    ∃ s, q.Ends e s u ∧ q.Ends e (!s) v := by
  obtain ⟨s,hu,hv⟩ := EdgeEnds.opposite?_iff.mp able.opposite
  exact ⟨s,⟨y,ends,able.edge,able.ended,hu⟩,⟨y,ends,able.edge,able.ended,hv⟩⟩

/-- What an edge was before it went. -/
inductive Goes (q : Query) (e : ItemId) : Prop
  /-- A self-loop without annotation at a settled vertex. -/
  | loop {v : ItemId} (ends : ∀ s, q.Ends e s v) (settled : q.SettledAt v)
    (bounds : q.itemBounds e = none) (unmarked : q.itemMarker e = none)
  /-- An edge between settled vertices of one container. -/
  | join {s : Bool} {v u : ItemId} (near : q.Ends e s v) (far : q.Ends e (!s) u) (ne : v ≠ u)
    (settled : q.SettledAt v) (settled' : q.SettledAt u) (together : q.itemOwner v = q.itemOwner u)
    (unmarked : q.itemMarker e = none)
  /-- The edge of an annotated vertex. -/
  | absorb {v u : ItemId} {s : Bool} (h : q.Absorbs v e s u)

/-- An end is another one or the opposite one. -/
theorem eq_or_opposite (s t : Bool) : s = t ∨ s = !t := by
  cases s <;> cases t <;> simp

/-- A vertex and an edge are different items. -/
theorem isVertex_ne_isEdge (hv : q.IsVertex v) (he : q.IsEdge e) : v ≠ e :=
  fun h => he.not_isVertex (h ▸ hv)

/-- How the items of a reduction come to be merged. -/
inductive Merges (q : Query) : Rule → List ItemId → ItemId → Prop
  /-- One vertex without annotation is changed. -/
  | alone {rule : Rule} {v out : ItemId} (vertex : q.IsVertex v) (bounds : q.itemBounds v = none) :
    Merges q rule [v] out
  /-- A self-loop goes. -/
  | loop {v e : ItemId} (ends : ∀ s, q.Ends e s v) (settled : q.SettledAt v)
    (bounds : q.itemBounds e = none) (unmarked : q.itemMarker e = none) :
    Merges q absorbSelfLoop [v,e] v
  /-- Two settled vertices become one. -/
  | join {s : Bool} {v e u : ItemId} (near : q.Ends e s v) (far : q.Ends e (!s) u) (ne : v ≠ u)
    (settled : q.SettledAt v) (settled' : q.SettledAt u) (together : q.itemOwner v = q.itemOwner u)
    (unmarked : q.itemMarker e = none) : Merges q collapseEdge [v,e,u] v
  /-- An annotated vertex is absorbed. -/
  | absorb {v e u : ItemId} {s : Bool} (h : q.Absorbs v e s u) :
    Merges q absorbAnnotatedVertex [v,e,u] v

theorem Reduction.merges (hr : Reduction q rule a q' out) (hq : q.WellFormed) :
    Merges q rule a.items out := by
  cases hr with
  | @getVertex v x edges c live kind bounds listed owner unmarked =>
    exact .alone ⟨x,live,Item.isVertex_of_kind (.inl kind)⟩ ((itemBounds_of_some live).trans bounds)
  | @absorbSelfLoop _ e x y ends c live settled edge ended loop owner bounds unmarked =>
    refine .loop (fun s => ⟨y,ends,edge,ended,?_⟩) ⟨x,live,settled⟩
      ((itemBounds_of_some edge).trans bounds) ((itemMarker_of_some edge).trans unmarked)
    cases s
    · exact loop.2
    · exact loop.1
  | @collapseEdge _ e u x y w ends edges c d able settled settled' unmarked together =>
    obtain ⟨s,hu,hv⟩ := absorbable_ends able
    refine .join hv (by rw [Bool.not_not]; exact hu) able.ne ⟨x,able.kept,settled⟩
      ⟨w,able.absorbed,settled'⟩ ?_ ((itemMarker_of_some able.edge).trans unmarked)
    rw [itemOwner_of_some able.kept,itemOwner_of_some able.absorbed,together]
  | @absorbAnnotatedVertex _ e u x y w ends c d b marker able settled bounds annotated unmarked
      unmarked' together marking marked =>
    obtain ⟨s,hu,hv⟩ := absorbable_ends able
    refine .absorb (s:=s) ⟨hu,hv,able.ne,?_,⟨x,able.kept,settled⟩,?_,?_,?_,?_,?_⟩
    · rw [itemBounds_of_some able.absorbed,bounds]
      exact Option.some_ne_none b
    · rw [itemOwner_of_some able.kept,itemOwner_of_some able.absorbed,together]
    · rw [itemBounds_of_some able.edge]
      exact annotated
    · rw [itemMarker_of_some able.edge,itemMarker_of_some able.absorbed]
      exact ⟨unmarked,unmarked'⟩
    · intro f t hf
      have hm := (hq.incident.joined able.absorbed able.listed).mpr (exists_ends_iff.mp ⟨t,hf⟩)
      exact List.mem_singleton.mp hm
    · intro b' hb hmax
      rw [itemBounds_of_some able.absorbed,bounds] at hb
      cases hb
      obtain ⟨max,hmax⟩ := Option.isSome_iff_exists.mp hmax
      rw [marking,hmax,Option.isSome_some,Option.bind_some,Option.isSome_map] at marked
      rw [itemNames_of_some able.absorbed]
      exact ⟨y,ends,able.edge,able.ended,EdgeEnds.nameAmong?_isSome.mp marked⟩
  | @applyUpperLimit _ x marker live kind bounds marked =>
    exact .alone ⟨x,live,Item.isVertex_of_kind (.inr kind)⟩ ((itemBounds_of_some live).trans bounds)
  | @eliminateSubquery _ x s p S live settled owner inner parent alone =>
    exact .alone ⟨x,live,Item.isVertex_of_kind (.inr settled.kind)⟩
      ((itemBounds_of_some live).trans settled.bounds)
  | @processConstraint _ x k found c C rest live settled declared bounds inside owner first carried =>
    exact .alone ⟨x,live,Item.isVertex_of_kind (.inr settled.kind)⟩
      ((itemBounds_of_some live).trans settled.bounds)

namespace Merges

/-- An edge goes in one of three ways. -/
theorem goes (h : Merges q rule items out) (hq : q.WellFormed) (he : q.IsEdge e) (hm : e ∈ items) :
    Goes q e := by
  cases h with
  | alone vertex bounds =>
    exact absurd (List.mem_singleton.mp hm).symm (isVertex_ne_isEdge vertex he)
  | loop ends settled bounds unmarked =>
    rcases List.mem_pair.mp hm with rfl|rfl
    · exact absurd rfl (isVertex_ne_isEdge settled.isVertex he)
    · exact .loop ends settled bounds unmarked
  | join near far ne settled settled' together unmarked =>
    simp only [List.mem_cons,List.not_mem_nil,or_false] at hm
    rcases hm with rfl|rfl|rfl
    · exact absurd rfl (isVertex_ne_isEdge settled.isVertex he)
    · exact .join near far ne settled settled' together unmarked
    · exact absurd rfl (isVertex_ne_isEdge settled'.isVertex he)
  | absorb h =>
    simp only [List.mem_cons,List.not_mem_nil,or_false] at hm
    rcases hm with rfl|rfl|rfl
    · exact absurd rfl (isVertex_ne_isEdge h.settled.isVertex he)
    · exact .absorb h
    · exact absurd rfl (isVertex_ne_isEdge (h.far.isVertex hq) he)

/-- The vertices at the ends of an edge that goes take part. -/
theorem ends_mem (h : Merges q rule items out) (hq : q.WellFormed) (he : q.Ends e s v)
    (hm : e ∈ items) : v ∈ items := by
  cases h with
  | alone vertex bounds =>
    exact absurd (List.mem_singleton.mp hm).symm (isVertex_ne_isEdge vertex he.isEdge)
  | loop ends settled bounds unmarked =>
    rcases List.mem_pair.mp hm with rfl|rfl
    · exact absurd rfl (isVertex_ne_isEdge settled.isVertex he.isEdge)
    · cases he.unique (ends s)
      exact List.mem_cons_self
  | @join t w f u near far ne settled settled' together unmarked =>
    simp only [List.mem_cons,List.not_mem_nil,or_false] at hm ⊢
    rcases hm with rfl|rfl|rfl
    · exact absurd rfl (isVertex_ne_isEdge settled.isVertex he.isEdge)
    · rcases eq_or_opposite s t with rfl|rfl
      · exact .inl (he.unique near)
      · exact .inr (.inr (he.unique far))
    · exact absurd rfl (isVertex_ne_isEdge settled'.isVertex he.isEdge)
  | @absorb w f u t h =>
    simp only [List.mem_cons,List.not_mem_nil,or_false] at hm ⊢
    rcases hm with rfl|rfl|rfl
    · exact absurd rfl (isVertex_ne_isEdge h.settled.isVertex he.isEdge)
    · rcases eq_or_opposite s t with rfl|rfl
      · exact .inr (.inr (he.unique h.far))
      · exact .inl (he.unique h.near)
    · exact absurd rfl (isVertex_ne_isEdge (h.far.isVertex hq) he.isEdge)

/-- A vertex without annotation takes part. -/
theorem exists_bare (h : Merges q rule items out) :
    ∃ v ∈ items, q.IsVertex v ∧ q.itemBounds v = none := by
  cases h with
  | alone vertex bounds => exact ⟨_,List.mem_cons_self,vertex,bounds⟩
  | loop ends settled => exact ⟨_,List.mem_cons_self,settled.isVertex,settled.itemBounds⟩
  | join near far ne settled =>
    exact ⟨_,List.mem_cons_self,settled.isVertex,settled.itemBounds⟩
  | absorb h => exact ⟨_,List.mem_cons_self,h.settled.isVertex,h.settled.itemBounds⟩

/-- An annotated vertex takes part only if what comes out absorbs it. -/
theorem absorbs (h : Merges q rule items out) (hv : q.IsVertex v) (hb : q.itemBounds v ≠ none)
    (hm : v ∈ items) : ∃ e s, e ∈ items ∧ q.Absorbs out e s v := by
  cases h with
  | alone vertex bounds => exact absurd (List.mem_singleton.mp hm ▸ bounds) hb
  | loop ends settled =>
    rcases List.mem_pair.mp hm with rfl|rfl
    · exact absurd settled.itemBounds hb
    · exact absurd rfl (isVertex_ne_isEdge hv (ends true).isEdge)
  | join near far ne settled settled' =>
    simp only [List.mem_cons,List.not_mem_nil,or_false] at hm
    rcases hm with rfl|rfl|rfl
    · exact absurd settled.itemBounds hb
    · exact absurd rfl (isVertex_ne_isEdge hv near.isEdge)
    · exact absurd settled'.itemBounds hb
  | absorb h =>
    simp only [List.mem_cons,List.not_mem_nil,or_false] at hm
    rcases hm with rfl|rfl|rfl
    · exact absurd h.settled.itemBounds hb
    · exact absurd rfl (isVertex_ne_isEdge hv h.far.isEdge)
    · exact ⟨_,_,by simp,h⟩

/-- If two vertices and an edge take part and the second vertex is annotated, it is absorbed. -/
theorem absorbs_last (h : Merges q rule [v,e,u] v) (hb : q.itemBounds u ≠ none) :
    ∃ s, q.Absorbs v e s u := by
  cases h with
  | join _ _ _ _ settled' => exact absurd settled'.itemBounds hb
  | absorb ha => exact ⟨_,ha⟩

/-- Only one vertex takes part, or what takes part is an edge with its ends. -/
theorem parts (h : Merges q rule items out) : (∃ v, items = [v]) ∨
    ∃ e ∈ items, q.IsEdge e ∧ ∀ i ∈ items, i = e ∨ ∃ s, q.Ends e s i := by
  cases h with
  | alone => exact .inl ⟨_,rfl⟩
  | loop ends settled =>
    refine .inr ⟨_,by simp,(ends true).isEdge,fun i hi => ?_⟩
    rcases List.mem_pair.mp hi with rfl|rfl
    · exact .inr ⟨true,ends true⟩
    · exact .inl rfl
  | join near far =>
    refine .inr ⟨_,by simp,near.isEdge,fun i hi => ?_⟩
    simp only [List.mem_cons,List.not_mem_nil,or_false] at hi
    rcases hi with rfl|rfl|rfl
    · exact .inr ⟨_,near⟩
    · exact .inl rfl
    · exact .inr ⟨_,far⟩
  | absorb h =>
    refine .inr ⟨_,by simp,h.far.isEdge,fun i hi => ?_⟩
    simp only [List.mem_cons,List.not_mem_nil,or_false] at hi
    rcases hi with rfl|rfl|rfl
    · exact .inr ⟨_,h.near⟩
    · exact .inl rfl
    · exact .inr ⟨_,h.far⟩

/-- Without an edge collapsed, the edges that stay end at one of the vertices that take part. -/
theorem eq_of_ends (h : Merges q rule items out) (hq : q.WellFormed) (hrule : rule ≠ collapseEdge)
    {f : ItemId} {t : Bool} (hv : q.Ends e s v) (he : e ∉ items) (hvm : v ∈ items)
    (hu : q.Ends f t u) (hf : f ∉ items) (hum : u ∈ items) : v = u := by
  -- Each of them is the first one.
  have hfirst : ∀ {f t u}, q.Ends f t u → f ∉ items → u ∈ items → items.head? = some u := by
    intro f t u hu hf hm
    cases h with
    | alone vertex bounds => rw [List.mem_singleton.mp hm]; rfl
    | loop ends settled =>
      rcases List.mem_pair.mp hm with rfl|rfl
      · rfl
      · exact absurd rfl (isVertex_ne_isEdge (hu.isVertex hq) (ends true).isEdge)
    | join => exact absurd rfl hrule
    | absorb h =>
      simp only [List.mem_cons,List.not_mem_nil,or_false] at hm
      rcases hm with rfl|rfl|rfl
      · rfl
      · exact absurd rfl (isVertex_ne_isEdge (hu.isVertex hq) h.far.isEdge)
      · rw [h.alone hu] at hf
        exact absurd (by simp) hf
  exact Option.some.inj ((hfirst hv he hvm).symm.trans (hfirst hu hf hum))

end Merges

/-- An annotated end of an edge goes with the annotated vertex there. -/
theorem Goes.absorbs (h : Goes q e) (ha : q.AnnotatedAt e s) : ∃ v u, q.Absorbs v e s u := by
  cases h with
  | @loop v ends settled bounds unmarked =>
    obtain ⟨v',u',hv,hu,hne,-⟩ := ha
    exact absurd ((hv.unique (ends s)).trans (hu.unique (ends (!s))).symm) hne
  | @join t v u near far ne settled settled' together unmarked =>
    rcases eq_or_opposite s t with rfl|rfl
    · exact absurd ha (not_annotatedAt near far settled.itemBounds together)
    · exact absurd ha (not_annotatedAt far (by rw [Bool.not_not]; exact near) settled'.itemBounds
        together.symm)
  | @absorb v u t h =>
    rcases eq_or_opposite s t with rfl|rfl
    · exact ⟨v,u,h⟩
    · exact absurd ha h.not_annotatedAt

/-- An edge that goes is not marked. -/
theorem Goes.itemMarker (h : Goes q e) : q.itemMarker e = none := by
  cases h with
  | loop ends settled bounds unmarked => exact unmarked
  | join near far ne settled settled' together unmarked => exact unmarked
  | absorb h => exact h.unmarked.1

/-- The vertices at the ends of an edge that goes lie together. -/
theorem Goes.itemOwner_eq (h : Goes q e) {t : Bool} (hv : q.Ends e s v) (hu : q.Ends e t u) :
    q.itemOwner v = q.itemOwner u := by
  have hkey : ∀ {v u : ItemId} {r : Bool}, q.Ends e r v → q.Ends e (!r) u →
      q.itemOwner v = q.itemOwner u := by
    intro v u r hv hu
    cases h with
    | loop ends => rw [hv.unique (ends r),hu.unique (ends (!r))]
    | @join t _ _ near far ne settled settled' together =>
      rcases eq_or_opposite r t with rfl|rfl
      · rw [hv.unique near,hu.unique far,together]
      · rw [Bool.not_not] at hu
        rw [hv.unique far,hu.unique near,together]
    | @absorb _ _ t h =>
      rcases eq_or_opposite r t with rfl|rfl
      · rw [hv.unique h.far,hu.unique h.near,h.together]
      · rw [Bool.not_not] at hu
        rw [hv.unique h.near,hu.unique h.far,h.together]
  rcases eq_or_opposite t s with rfl|rfl
  · rw [hv.unique hu]
  · exact hkey hv hu

end Rule

end GraphPattern
