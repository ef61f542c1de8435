import GraphPattern.Proofs.Rule.Effort
import GraphPattern.Proofs.Rule.Origin

/-!
# The ends of edges

A reduction merges some items into one vertex. The edges that stay keep their ends, which move along
with the vertices, and seen from an edge that stays nothing is annotated otherwise: an annotation
that a subquery had is one of the vertex that is left of it.
-/

namespace GraphPattern

/-- Where an item is when some items have become one. -/
def ItemId.merged (i : ItemId) (items : List ItemId) (out : ItemId) : ItemId :=
  if i ∈ items then out else i

theorem ItemId.merged_of_mem {items : List ItemId} {out i : ItemId} (h : i ∈ items) :
    i.merged items out = out :=
  if_pos h

theorem ItemId.merged_of_not_mem {items : List ItemId} {out i : ItemId} (h : i ∉ items) :
    i.merged items out = i :=
  if_neg h

/-- Nothing moves when one item becomes itself. -/
theorem ItemId.merged_self (i j : ItemId) : i.merged [j] j = i := by
  by_cases h : i ∈ [j]
  · rw [merged_of_mem h,List.mem_singleton.mp h]
  · exact merged_of_not_mem h

namespace EdgeEnds

/-- The vertex at one of the two ends, if it is known. -/
def at? (ends : EdgeEnds) : Bool → Option ItemId
  | true => ends.source
  | false => ends.target

theorem at?_follow (items : List ItemId) (out : ItemId) (ends : EdgeEnds) (s : Bool) :
    (ends.follow items out).at? s = (ends.at? s).map fun i => i.merged items out := by
  cases s <;> rfl

theorem touches_iff {ends : EdgeEnds} {v : ItemId} :
    ends.Touches v ↔ ∃ s, ends.at? s = some v := by
  constructor
  · rintro (h|h)
    · exact ⟨true,h⟩
    · exact ⟨false,h⟩
  · rintro ⟨_|_,h⟩
    · exact .inr h
    · exact .inl h

theorem opposite?_iff {ends : EdgeEnds} {u v : ItemId} :
    ends.opposite? u = some v ↔ ∃ s, ends.at? s = some u ∧ ends.at? (!s) = some v := by
  constructor
  · intro h
    rcases opposite?_eq_some h with ⟨hs,ht⟩|⟨hs,ht⟩
    · exact ⟨true,hs,ht⟩
    · exact ⟨false,ht,hs⟩
  · rintro ⟨_|_,hu,hv⟩
    · rw [opposite?,both?_eq_some.mpr ⟨hv,hu⟩]
      by_cases h : v = u
      · simp [h]
      · simp [h]
    · rw [opposite?,both?_eq_some.mpr ⟨hu,hv⟩]
      simp

end EdgeEnds

namespace Query

variable {q : Query} {e v u : ItemId} {s t : Bool}

/-- A live edge. -/
def IsEdge (q : Query) (e : ItemId) : Prop := ∃ y, q.item? e = some y ∧ y.isVertex = false

/-- A live vertex. -/
def IsVertex (q : Query) (v : ItemId) : Prop := ∃ x, q.item? v = some x ∧ x.isVertex = true

/-- The vertex is at the end of a live edge, the first one or the second one. -/
def Ends (q : Query) (e : ItemId) (s : Bool) (v : ItemId) : Prop :=
  ∃ y ends, q.item? e = some y ∧ y.ends? = some ends ∧ ends.at? s = some v

/-- Both ends of every edge are known. -/
def Closed (q : Query) : Prop := ∀ {e}, q.IsEdge e → ∀ s, ∃ v, q.Ends e s v

/-- Subqueries lie in the root. -/
def Flat (q : Query) : Prop := ∀ {p c}, q.Holds p c → p = .root

/-- The container that owns the item of a number. -/
def itemOwner (q : Query) (i : ItemId) : Option ContainerId := (q.item? i).bind Item.container

/-- At an end of an edge something is annotated: the vertex there, or a subquery that it lies in and
the vertex at the other end does not. -/
def AnnotatedAt (q : Query) (e : ItemId) (s : Bool) : Prop :=
  ∃ v u, q.Ends e s v ∧ q.Ends e (!s) u ∧ v ≠ u ∧ (q.itemBounds v ≠ none ∨
    ∃ c, q.itemOwner v = some c ∧ q.itemOwner u ≠ some c ∧ q.subqueryBounds c ≠ none)

theorem isEdge_iff : q.IsEdge e ↔ ∃ y ends, q.item? e = some y ∧ y.ends? = some ends := by
  simp only [IsEdge,Item.not_isVertex_iff,exists_and_left]

theorem IsEdge.not_isVertex (h : q.IsEdge e) : ¬q.IsVertex e := by
  rintro ⟨x,hx,hv⟩
  obtain ⟨y,hy,he⟩ := h
  rw [hx] at hy
  cases hy
  rw [hv] at he
  cases he

theorem Ends.isEdge (h : q.Ends e s v) : q.IsEdge e := by
  obtain ⟨y,ends,hy,he,-⟩ := h
  exact isEdge_iff.mpr ⟨y,ends,hy,he⟩

/-- At an end there is one vertex. -/
theorem Ends.unique (h : q.Ends e s v) (h' : q.Ends e s u) : v = u := by
  obtain ⟨y,ends,hy,he,hs⟩ := h
  obtain ⟨y',ends',hy',he',hs'⟩ := h'
  rw [hy] at hy'
  cases hy'
  rw [he] at he'
  cases he'
  exact Option.some.inj (hs.symm.trans hs')

theorem Ends.touches (h : q.Ends e s v) : ∃ y, q.item? e = some y ∧ y.Touches v := by
  obtain ⟨y,ends,hy,he,hs⟩ := h
  exact ⟨y,hy,ends,he,EdgeEnds.touches_iff.mpr ⟨s,hs⟩⟩

theorem Ends.isVertex (h : q.Ends e s v) (hq : q.WellFormed) : q.IsVertex v := by
  obtain ⟨y,hy,ht⟩ := h.touches
  exact hq.incident.ended hy ht

theorem exists_ends_iff : (∃ s, q.Ends e s v) ↔ ∃ y, q.item? e = some y ∧ y.Touches v := by
  constructor
  · rintro ⟨s,h⟩
    exact h.touches
  · rintro ⟨y,hy,ends,he,ht⟩
    obtain ⟨s,hs⟩ := EdgeEnds.touches_iff.mp ht
    exact ⟨s,y,ends,hy,he,hs⟩

theorem itemBounds_of_some {x : Item} (h : q.item? v = some x) : q.itemBounds v = x.bounds := by
  rw [itemBounds,h]
  rfl

theorem itemOwner_of_some {x : Item} (h : q.item? v = some x) : q.itemOwner v = x.container := by
  rw [itemOwner,h]
  rfl

theorem subqueryBounds_of_some {c : ContainerId} {C : Container} (h : q.container? c = some C) :
    q.subqueryBounds c = C.bounds := by
  rw [subqueryBounds,h]
  rfl

/-- The owner of an item is live. -/
theorem WellFormed.itemOwner (h : q.WellFormed) {x : Item} (hx : q.item? v = some x) :
    ∃ c C, q.itemOwner v = some c ∧ q.container? c = some C := by
  obtain ⟨c,C,hc,hC⟩ := h.owner hx
  exact ⟨c,C,(itemOwner_of_some hx).trans hc,hC⟩

/-- The root is not annotated. -/
theorem WellFormed.subqueryBounds_root (h : q.WellFormed) : q.subqueryBounds .root = none := by
  obtain ⟨R,hR,hp⟩ := h.nested.root
  rw [subqueryBounds_of_some hR]
  cases R with
  | mk kind => cases kind with
    | query => rfl
    | subquery => cases hp

end Query

namespace Rule

open Query

variable {q q' : Query} {items : List ItemId} {out : ItemId} {e v u : ItemId} {s : Bool}

namespace Changes

theorem isEdge_iff (hc : Changes q q' items out) :
    q'.IsEdge e ↔ q.IsEdge e ∧ e ∉ items := by
  rw [Query.isEdge_iff,Query.isEdge_iff]
  constructor
  · rintro ⟨y,ends,hy,he⟩
    obtain ⟨hm,x,ends₀,hx,he₀,-⟩ := hc.edge_back hy he
    exact ⟨⟨x,ends₀,hx,he₀⟩,hm⟩
  · rintro ⟨⟨x,ends,hx,he⟩,hm⟩
    obtain ⟨-,y,hy,hf⟩ := hc.forth hx hm
    exact ⟨y,_,hy,by rw [hf.ends,he]; rfl⟩

/-- The edges that stay end where they ended, up to what was merged. -/
theorem ends_iff (hc : Changes q q' items out) :
    q'.Ends e s v ↔ e ∉ items ∧ ∃ u, q.Ends e s u ∧ v = u.merged items out := by
  constructor
  · rintro ⟨y,ends,hy,he,hs⟩
    obtain ⟨hm,x,ends₀,hx,he₀,rfl,-⟩ := hc.edge_back hy he
    rw [EdgeEnds.at?_follow] at hs
    obtain ⟨u,hu,hv⟩ := Option.map_eq_some_iff.mp hs
    exact ⟨hm,u,⟨x,ends₀,hx,he₀,hu⟩,hv.symm⟩
  · rintro ⟨hm,u,⟨x,ends,hx,he,hs⟩,rfl⟩
    obtain ⟨-,y,hy,hf⟩ := hc.forth hx hm
    exact ⟨y,ends.follow items out,hy,by rw [hf.ends,he]; rfl,by rw [EdgeEnds.at?_follow,hs]; rfl⟩

theorem ends (hc : Changes q q' items out) (h : q.Ends e s v) (hm : e ∉ items) :
    q'.Ends e s (v.merged items out) :=
  hc.ends_iff.mpr ⟨hm,v,h,rfl⟩

theorem closed (hc : Changes q q' items out) (h : q.Closed) : q'.Closed := by
  intro e he s
  obtain ⟨he,hm⟩ := hc.isEdge_iff.mp he
  obtain ⟨v,hv⟩ := h he s
  exact ⟨_,hc.ends hv hm⟩

/-- What comes out is a vertex. -/
theorem isVertex_out (hc : Changes q q' items out) : q'.IsVertex out := by
  obtain ⟨y,hy,hk,-⟩ := hc.out
  exact ⟨y,hy,Item.isVertex_of_kind (.inr hk)⟩

/-- Beside the vertex that came out the vertices are old ones. -/
theorem isVertex_iff (hc : Changes q q' items out) (hne : v ≠ out) :
    q'.IsVertex v ↔ q.IsVertex v ∧ v ∉ items := by
  constructor
  · rintro ⟨y,hy,hv⟩
    obtain ⟨hm,x,hx,hf⟩ := hc.back hy hne
    exact ⟨⟨x,hx,Item.isVertex_iff_kind.mpr (hf.kind ▸ Item.isVertex_iff_kind.mp hv)⟩,hm⟩
  · rintro ⟨⟨x,hx,hv⟩,hm⟩
    obtain ⟨-,y,hy,hf⟩ := hc.forth hx hm
    exact ⟨y,hy,Item.isVertex_iff_kind.mpr (hf.kind ▸ Item.isVertex_iff_kind.mp hv)⟩

/-- Where a vertex is after the change there is a vertex. -/
theorem isVertex_merged (hc : Changes q q' items out) (hv : q.IsVertex v) :
    q'.IsVertex (v.merged items out) := by
  by_cases hm : v ∈ items
  · rw [ItemId.merged_of_mem hm]
    exact hc.isVertex_out
  · rw [ItemId.merged_of_not_mem hm]
    obtain ⟨x,hx,-⟩ := id hv
    exact (hc.isVertex_iff (hc.forth hx hm).1).mpr ⟨hv,hm⟩

/-- A live item is merged into what comes out exactly if the change is about it. -/
theorem merged_eq_out (hc : Changes q q' items out) {x : Item} (hx : q.item? v = some x) :
    v.merged items out = out ↔ v ∈ items := by
  constructor
  · intro h
    by_contra hm
    rw [ItemId.merged_of_not_mem hm] at h
    exact (hc.forth hx hm).1 h
  · exact ItemId.merged_of_mem

/-- Something is in a place that the change is not about exactly if it was there before. -/
theorem merged_eq_iff (hc : Changes q q' items out) {x : Item} (hx : q.item? v = some x)
    (hm : v ∉ items) {i : ItemId} : i.merged items out = v ↔ i = v := by
  constructor
  · intro h
    by_cases hi : i ∈ items
    · rw [ItemId.merged_of_mem hi] at h
      exact absurd h.symm (hc.forth hx hm).1
    · rwa [ItemId.merged_of_not_mem hi] at h
  · rintro rfl
    exact ItemId.merged_of_not_mem hm

end Changes

namespace Level

theorem subqueryBounds (hl : Level q q' items out) (c : ContainerId) :
    q'.subqueryBounds c = q.subqueryBounds c := by
  rw [Query.subqueryBounds,Query.subqueryBounds]
  cases h : q.container? c with
  | none => rw [hl.live.mpr h]
  | some C =>
    obtain ⟨C',hC',he⟩ := exists_of_map_eq (hl.container c).symm h
    rw [hC']
    exact (Prod.mk.inj he).1

/-- A vertex lies where the vertices did that went into it. -/
theorem itemOwner (hl : Level q q' items out) (hc : Changes q q' items out) (hv : q.IsVertex v) :
    q'.itemOwner (v.merged items out) = q.itemOwner v := by
  obtain ⟨x,hx,hv⟩ := hv
  by_cases hm : v ∈ items
  · obtain ⟨y,hy,-⟩ := hc.out
    rw [ItemId.merged_of_mem hm,itemOwner_of_some hy,itemOwner_of_some hx,hl.owner hy hm hx hv]
  · obtain ⟨-,y,hy,-⟩ := hc.forth hx hm
    rw [ItemId.merged_of_not_mem hm,itemOwner_of_some hy,itemOwner_of_some hx,hl.other hm hy hx]

/-- At the end of an edge that stays the annotation of the vertex stays. -/
theorem itemBounds (hl : Level q q' items out) (hc : Changes q q' items out) (hq : q.WellFormed)
    (he : q.Ends e s v) (hm : e ∉ items) :
    q'.itemBounds (v.merged items out) = q.itemBounds v := by
  obtain ⟨x,hx,-⟩ := he.isVertex hq
  by_cases hv : v ∈ items
  · obtain ⟨z,hz,ht⟩ := he.touches
    obtain ⟨y,hy,-⟩ := hc.out
    rw [ItemId.merged_of_mem hv,itemBounds_of_some hy,itemBounds_of_some hx,hl.bare hy,
      hl.free hv hx hm hz ht]
  · obtain ⟨-,y,hy,hf⟩ := hc.forth hx hv
    rw [ItemId.merged_of_not_mem hv,itemBounds_of_some hy,itemBounds_of_some hx,hf.bounds]

/-- What the change is about, vertices at which other edges end, has no annotation and lies
together. -/
theorem alike (hl : Level q q' items out) (hc : Changes q q' items out) (hq : q.WellFormed)
    (he : q.Ends e s v) (hm : e ∉ items) (hv : v ∈ items) (hu : u ∈ items) (hx : q.IsVertex u) :
    q.itemBounds v = none ∧ q.itemOwner v = q.itemOwner u := by
  obtain ⟨x,hxv,-⟩ := he.isVertex hq
  obtain ⟨z,hz,ht⟩ := he.touches
  refine ⟨by rw [itemBounds_of_some hxv,hl.free hv hxv hm hz ht],?_⟩
  rw [← hl.itemOwner hc (he.isVertex hq),← hl.itemOwner hc hx,ItemId.merged_of_mem hv,
    ItemId.merged_of_mem hu]

/-- Seen from an edge that stays, nothing is annotated otherwise. -/
theorem annotatedAt_iff (hl : Level q q' items out) (hc : Changes q q' items out)
    (hq : q.WellFormed) (hm : e ∉ items) : q'.AnnotatedAt e s ↔ q.AnnotatedAt e s := by
  constructor
  · rintro ⟨v',u',hv',hu',hne,h⟩
    obtain ⟨-,v,hv,rfl⟩ := hc.ends_iff.mp hv'
    obtain ⟨-,u,hu,rfl⟩ := hc.ends_iff.mp hu'
    refine ⟨v,u,hv,hu,fun he => hne (by rw [he]),?_⟩
    rw [hl.itemBounds hc hq hv hm] at h
    simp only [hl.itemOwner hc (hv.isVertex hq),hl.itemOwner hc (hu.isVertex hq),
      hl.subqueryBounds] at h
    exact h
  · rintro ⟨v,u,hv,hu,hne,h⟩
    refine ⟨_,_,hc.ends hv hm,hc.ends hu hm,fun he => ?_,?_⟩
    · -- The two ends would be merged, but then nothing was annotated.
      have hmem : v ∈ items ∧ u ∈ items := by
        obtain ⟨x,hx,-⟩ := hv.isVertex hq
        obtain ⟨y,hy,-⟩ := hu.isVertex hq
        by_cases hvm : v ∈ items
        · rw [ItemId.merged_of_mem hvm] at he
          exact ⟨hvm,(hc.merged_eq_out hy).mp he.symm⟩
        · rw [ItemId.merged_of_not_mem hvm] at he
          by_cases hum : u ∈ items
          · rw [ItemId.merged_of_mem hum] at he
            exact absurd he (hc.forth hx hvm).1
          · rw [ItemId.merged_of_not_mem hum] at he
            exact absurd he hne
      obtain ⟨hb,ho⟩ := hl.alike hc hq hv hm hmem.1 hmem.2 (hu.isVertex hq)
      rcases h with h|⟨c,hv,hu,-⟩
      · exact h hb
      · exact hu (ho ▸ hv)
    · rw [hl.itemBounds hc hq hv hm]
      simp only [hl.itemOwner hc (hv.isVertex hq),hl.itemOwner hc (hu.isVertex hq),
        hl.subqueryBounds]
      exact h

end Level

namespace Unwrapped

variable {x : Item} {c p : ContainerId} {S : Container}

theorem itemOwner (hu : Unwrapped q q' out x c p S) (v : ItemId) :
    q'.itemOwner v = if q.itemOwner v = some c then some p else q.itemOwner v := by
  rw [Query.itemOwner,Query.itemOwner,hu.item]
  cases hx : q.item? v with
  | none => rfl
  | some y =>
    simp only [Option.map_some,Option.bind_some]
    split <;> split <;> simp_all

theorem itemBounds (hu : Unwrapped q q' out x c p S) (v : ItemId) :
    q'.itemBounds v = if v = out then S.bounds else q.itemBounds v := by
  rw [Query.itemBounds,Query.itemBounds,hu.item]
  by_cases hv : v = out
  · rw [hv,hu.vertex,if_pos rfl]
    simp
  · rw [if_neg hv]
    cases q.item? v with
    | none => rfl
    | some y =>
      simp only [Option.map_some,Option.bind_some,if_neg hv]
      split <;> rfl

/-- Only the vertex lies in the subquery. -/
theorem itemOwner_iff (hu : Unwrapped q q' out x c p S) (hq : q.WellFormed) :
    q.itemOwner v = some c ↔ v = out := by
  constructor
  · intro h
    rw [Query.itemOwner] at h
    obtain ⟨y,hy,hc⟩ := Option.bind_eq_some_iff.mp h
    have hm := (hq.container_iff hu.inner hy).mp hc
    rw [hu.alone.1,hu.alone.2.1] at hm
    simpa using hm
  · rintro rfl
    rw [itemOwner_of_some hu.vertex,hu.owner]

theorem subqueryBounds (hu : Unwrapped q q' out x c p S) {d : ContainerId} (hd : d ≠ c) :
    q'.subqueryBounds d = q.subqueryBounds d := by
  rw [Query.subqueryBounds,Query.subqueryBounds]
  cases h : q'.container? d with
  | none => rw [(hu.live d hd).mp h]
  | some D =>
    obtain ⟨-,D₀,hD₀,hb⟩ := hu.container h
    rw [hD₀]
    exact hb

/-- The container around the subquery is the root. -/
theorem parent_eq (hu : Unwrapped q q' out x c p S) (hq : q.WellFormed) (hf : q.Flat) :
    p = .root := by
  obtain ⟨P,hP,hm⟩ := hq.nested.listed hu.inner hu.parent
  exact hf ⟨P,hP,hm⟩

theorem ne_root (hu : Unwrapped q q' out x c p S) (hq : q.WellFormed) : c ≠ .root := by
  rintro rfl
  obtain ⟨R,hR,hp⟩ := hq.nested.root
  rw [hu.inner] at hR
  cases hR
  rw [hu.parent] at hp
  cases hp

/-- Seen from an edge, nothing is annotated otherwise: the vertex has the annotation of the
subquery. -/
theorem annotatedAt_iff (hu : Unwrapped q q' out x c p S) (hc : Changes q q' [out] out)
    (hq : q.WellFormed) (hf : q.Flat) (hm : e ∉ [out]) :
    q'.AnnotatedAt e s ↔ q.AnnotatedAt e s := by
  have hends : ∀ s v, q'.Ends e s v ↔ q.Ends e s v := by
    intro s v
    rw [hc.ends_iff]
    constructor
    · rintro ⟨-,u,hu,rfl⟩
      rw [ItemId.merged_self]
      exact hu
    · exact fun h => ⟨hm,v,h,(ItemId.merged_self v out).symm⟩
  have hp : q'.subqueryBounds p = none := by
    rw [hu.subqueryBounds ((hq.nested.around hu.inner hu.parent).1),hu.parent_eq hq hf,
      hq.subqueryBounds_root]
  have hS : q.subqueryBounds c = S.bounds := subqueryBounds_of_some hu.inner
  have hown : ∀ v, q.itemOwner v = some c ↔ v = out := fun v => hu.itemOwner_iff hq
  -- What is annotated at the first of two different vertices, seen from the second one.
  have hkey : ∀ v w, v ≠ w → ((q'.itemBounds v ≠ none ∨ ∃ d, q'.itemOwner v = some d ∧
      q'.itemOwner w ≠ some d ∧ q'.subqueryBounds d ≠ none) ↔ (q.itemBounds v ≠ none ∨
        ∃ d, q.itemOwner v = some d ∧ q.itemOwner w ≠ some d ∧ q.subqueryBounds d ≠ none)) := by
    intro v w hne
    rw [hu.itemBounds]
    by_cases hv : v = out
    · have hvc := (hown v).mpr hv
      have hwc : q.itemOwner w ≠ some c := fun h => hne (hv.trans ((hown w).mp h).symm)
      have hvb : q.itemBounds v = none := by
        rw [hv,itemBounds_of_some hu.vertex,hu.settled.bounds]
      rw [if_pos hv,hvb,← hS]
      constructor
      · rintro (h|⟨d,hd,-,hdb⟩)
        · exact .inr ⟨c,hvc,hwc,h⟩
        · rw [hu.itemOwner,if_pos hvc] at hd
          cases hd
          exact absurd hp hdb
      · rintro (h|⟨d,hd,-,hdb⟩)
        · exact absurd rfl h
        · rw [hvc] at hd
          cases hd
          exact .inl hdb
    · have hvc : q.itemOwner v ≠ some c := fun h => hv ((hown v).mp h)
      rw [if_neg hv,hu.itemOwner v,if_neg hvc]
      refine or_congr_right (exists_congr fun d => and_congr_right fun hd => ?_)
      have hdc : d ≠ c := fun he => hvc (he ▸ hd)
      rw [hu.subqueryBounds hdc,hu.itemOwner w]
      refine and_congr_left fun hdb => ?_
      split
      · rename_i hw
        -- The container around the subquery is not annotated.
        have hpd : p ≠ d := fun he => hdb (by rw [← hu.subqueryBounds hdc,← he,hp])
        simp [hw,hpd,hdc.symm]
      · rfl
  constructor
  · rintro ⟨v,w,hv,hw,hne,h⟩
    exact ⟨v,w,(hends _ _).mp hv,(hends _ _).mp hw,hne,(hkey v w hne).mp h⟩
  · rintro ⟨v,w,hv,hw,hne,h⟩
    exact ⟨v,w,(hends _ _).mpr hv,(hends _ _).mpr hw,hne,(hkey v w hne).mpr h⟩

end Unwrapped

/-- Seen from an edge that stays, nothing is annotated otherwise after a reduction. -/
theorem Reduction.annotatedAt_iff {rule : Rule} {a : Application} (hr : Reduction q rule a q' out)
    (hq : q.WellFormed) (hf : q.Flat) (hm : e ∉ a.items) :
    q'.AnnotatedAt e s ↔ q.AnnotatedAt e s := by
  have hc := hr.changes hq
  rcases hr.level_or_unwrapped hq with hl|⟨x,c,p,S,hi,hu⟩
  · exact hl.annotatedAt_iff hc hq hm
  · rw [hi] at hc hm
    exact hu.annotatedAt_iff hc hq hf hm

/-- Subqueries lie in the root after a reduction if they did before. -/
theorem Reduction.flat {rule : Rule} {a : Application} (hr : Reduction q rule a q' out)
    (hq : q.WellFormed) (hf : q.Flat) : q'.Flat := by
  intro p c h
  rcases hr.level_or_unwrapped hq with hl|⟨x,d,r,S,-,hu⟩
  · exact hf (hl.holds ▸ h)
  · exact hf ((hu.holds p c).mp h).1

section Containers

variable {rule : Rule} {a : Application} {c : ContainerId} {C : Container}

/-- A container stays with its annotation, or it is a subquery that is lifted. -/
theorem Reduction.container_cases (hr : Reduction q rule a q' out) (hq : q.WellFormed)
    (hC : q.container? c = some C) : (∃ C', q'.container? c = some C' ∧ C'.bounds = C.bounds) ∨
      ∃ x p, a.items = [out] ∧ Unwrapped q q' out x c p C := by
  rcases hr.level_or_unwrapped hq with hl|⟨x,d,p,S,hi,hu⟩
  · obtain ⟨C',hC',he⟩ := exists_of_map_eq (hl.container c).symm hC
    exact .inl ⟨C',hC',(Prod.mk.inj he).1⟩
  · by_cases hcd : c = d
    · subst hcd
      have hS := hu.inner
      rw [hC] at hS
      cases hS
      exact .inr ⟨x,p,hi,hu⟩
    · cases hC' : q'.container? c with
      | none =>
        rw [(hu.live c hcd).mp hC'] at hC
        cases hC
      | some C' =>
        obtain ⟨-,C₀,hC₀,hb⟩ := hu.container hC'
        rw [hC] at hC₀
        cases hC₀
        exact .inl ⟨C',rfl,hb⟩

/-- A container is an old one. -/
theorem Reduction.container_back (hr : Reduction q rule a q' out) (hq : q.WellFormed)
    (hC : q'.container? c = some C) : ∃ C₀, q.container? c = some C₀ ∧ C.bounds = C₀.bounds := by
  rcases hr.level_or_unwrapped hq with hl|⟨x,d,p,S,hi,hu⟩
  · obtain ⟨C₀,hC₀,he⟩ := exists_of_map_eq (hl.container c) hC
    exact ⟨C₀,hC₀,(Prod.mk.inj he).1.symm⟩
  · exact (hu.container hC).2

/-- A vertex lies in a subquery that stays exactly if it did. -/
theorem Reduction.itemOwner_iff (hr : Reduction q rule a q' out) (hq : q.WellFormed) (hf : q.Flat)
    (hC : q'.container? c = some C) (hc : c ≠ .root) (hv : q.IsVertex v) :
    q'.itemOwner (v.merged a.items out) = some c ↔ q.itemOwner v = some c := by
  have hch := hr.changes hq
  rcases hr.level_or_unwrapped hq with hl|⟨x,d,p,S,hi,hu⟩
  · rw [hl.itemOwner hch hv]
  · have hcd : c ≠ d := (hu.container hC).1
    rw [hi,ItemId.merged_self,hu.itemOwner]
    split
    · rename_i hd
      have hpc : p ≠ c := fun h => hc (h.symm.trans (hu.parent_eq hq hf))
      simp [hd,hpc,hcd.symm]
    · rfl

/-- A vertex stays in its container, unless nothing else takes part. -/
theorem Reduction.itemOwner_stays (hr : Reduction q rule a q' out) (hq : q.WellFormed)
    (hv : q.IsVertex v) (ho : q.itemOwner v = some c) (hne : a.items ≠ [v]) :
    q'.itemOwner (v.merged a.items out) = some c := by
  rcases hr.level_or_unwrapped hq with hl|⟨x,d,p,S,hi,hu⟩
  · rw [hl.itemOwner (hr.changes hq) hv,ho]
  · have hvo : v ≠ out := fun hvo => hne (hvo ▸ hi)
    rw [hi,ItemId.merged_self,hu.itemOwner,if_neg,ho]
    exact fun hd => hvo ((hu.itemOwner_iff hq).mp hd)

/-- Vertices that lie together stay together. -/
theorem Reduction.itemOwner_eq (hr : Reduction q rule a q' out) (hq : q.WellFormed)
    (hv : q.IsVertex v) (hu : q.IsVertex u) (h : q.itemOwner v = q.itemOwner u) :
    q'.itemOwner (v.merged a.items out) = q'.itemOwner (u.merged a.items out) := by
  have hch := hr.changes hq
  rcases hr.level_or_unwrapped hq with hl|⟨x,d,p,S,hi,hx⟩
  · rw [hl.itemOwner hch hv,hl.itemOwner hch hu,h]
  · rw [hi,ItemId.merged_self,ItemId.merged_self,hx.itemOwner,hx.itemOwner,h]

/-- An edge that stays keeps its owner. -/
theorem Reduction.itemOwner_edge (hr : Reduction q rule a q' out) (hq : q.WellFormed)
    (he : q.IsEdge e) (hm : e ∉ a.items) : q'.itemOwner e = q.itemOwner e := by
  have hch := hr.changes hq
  obtain ⟨y,hy,-⟩ := id he
  rcases hr.level_or_unwrapped hq with hl|⟨x,d,p,S,hi,hu⟩
  · obtain ⟨-,z,hz,-⟩ := hch.forth hy hm
    rw [itemOwner_of_some hz,itemOwner_of_some hy,hl.other hm hz hy]
  · have hed : q.itemOwner e ≠ some d := fun h => hm (by
      rw [hi,(hu.itemOwner_iff hq).mp h]
      exact List.mem_singleton_self out)
    rw [hu.itemOwner,if_neg hed]

end Containers

end Rule

end GraphPattern
