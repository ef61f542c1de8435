import GraphPattern.Proofs.Description.Build
import GraphPattern.Proofs.Rule.Limbs

/-!
# What stays what it was

Reductions only merge items, so a plain item of a later query is one of the first query and matches
the same. A composite vertex has a vertex without annotation in it, and a marker keeps the upper
bound of what hung at one of the edges in it.
-/

namespace GraphPattern

/-- The edge without the vertices at its ends. -/
def EdgeEnds.written (ends : EdgeEnds) : EdgeEnds := { ends with source := none, target := none }

/-- The name that is written for an end. -/
def EdgeEnds.nameAt (ends : EdgeEnds) : Bool → String
  | true => ends.sourceName
  | false => ends.targetName

/-- Both items match the same. -/
structure Item.Resembles (y x : Item) : Prop where
  /-- They have the same names. -/
  names : y.names = x.names
  /-- They are of the same class. -/
  kind : y.kind = x.kind
  /-- They have the same condition. -/
  condition : y.condition = x.condition
  /-- They have the same annotation. -/
  bounds : y.bounds = x.bounds
  /-- Their ends are written alike. -/
  ends : y.ends?.map EdgeEnds.written = x.ends?.map EdgeEnds.written

namespace Item.Resembles

variable {x y z : Item}

theorem refl (x : Item) : x.Resembles x := ⟨rfl,rfl,rfl,rfl,rfl⟩

theorem joinedName (h : y.Resembles x) : y.joinedName = x.joinedName := by
  rw [Item.joinedName,Item.joinedName,h.names]

theorem of_follows {items : List ItemId} {out : ItemId} (hz : z.Follows items out y)
    (h : y.Resembles x) : z.Resembles x where
  names := hz.names.trans h.names
  kind := hz.kind.trans h.kind
  condition := hz.condition.trans h.condition
  bounds := hz.bounds.trans h.bounds
  ends := by
    rw [hz.ends,Option.map_map,← h.ends]
    rfl

/-- The ends of an edge are those of another one, as they are written. -/
theorem exists_ends {ends : EdgeEnds} (h : y.Resembles x) (he : y.ends? = some ends) :
    ∃ ends₀, x.ends? = some ends₀ ∧ ends.written = ends₀.written := by
  have hends := h.ends
  rw [he] at hends
  obtain ⟨ends₀,he₀,hw⟩ := Option.map_eq_some_iff.mp hends.symm
  exact ⟨ends₀,he₀,hw.symm⟩

end Item.Resembles

namespace EdgeEnds

variable {ends ends₀ : EdgeEnds}

theorem directed_of_written (h : ends.written = ends₀.written) : ends.directed = ends₀.directed := by
  have hd := congrArg EdgeEnds.directed h
  exact hd

theorem nameAt_of_written (h : ends.written = ends₀.written) (t : Bool) :
    ends.nameAt t = ends₀.nameAt t := by
  have hsource : ends.written.sourceName = ends₀.written.sourceName := congrArg _ h
  have htarget : ends.written.targetName = ends₀.written.targetName := congrArg _ h
  cases t with
  | true => exact hsource
  | false => exact htarget

end EdgeEnds

namespace Query

open Rule

variable {q₀ q q' : Query} {f : ItemId → ItemId} {e i u v out : ItemId} {t : Bool} {n : String}
  {rule : Rule} {a : Application}

/-- The name written for an end is one of the vertex there. -/
theorem Reducible.nameAt (h : q.Reducible) {y : Item} {ends : EdgeEnds} (hy : q.item? e = some y)
    (he : y.ends? = some ends) (hv : q.Ends e t v) : ends.nameAt t ∈ q.itemNames v := by
  obtain ⟨y',ends',hy',he',hat⟩ := hv
  rw [hy] at hy'
  cases hy'
  rw [he] at he'
  cases he'
  cases t with
  | true => exact mem_itemNames.mpr (h.source hy he hat)
  | false => exact mem_itemNames.mpr (h.target hy he hat)

/-- Of two vertices at an edge, one has the name that is written for its end. -/
theorem Reducible.nameAmong_eq (h : q.Reducible) {y : Item} {ends : EdgeEnds}
    (hy : q.item? e = some y) (he : y.ends? = some ends) (hv : q.Ends e t v)
    (hu : q.Ends e (!t) u) (hne : u ≠ v) : ends.nameAmong? (q.itemNames v) = some (ends.nameAt t) := by
  have hnv := h.nameAt hy he hv
  have hnu := h.nameAt hy he hu
  cases t with
  | true => exact if_pos hnv
  | false =>
    have hsource : ends.sourceName ∉ q.itemNames v := fun hs =>
      hne (h.wellFormed.eq_of_name hnu hs)
    rw [EdgeEnds.nameAmong?,if_neg hsource]
    exact if_pos hnv

/-- The marker keeps the upper bound of what hangs at an end of the edge. -/
def Marks (q : Query) (e : ItemId) (m : Provenance) : Prop :=
  ∃ t l b y ends, q.Leads e t l ∧ l.bounds q = some b ∧ q.item? e = some y ∧
    y.ends? = some ends ∧ m.item = ends.nameAt t ∧ m.max = b.max

/-- Reductions have led from the first query to the second one, in which plain items match what they
matched. -/
structure Lineal (q₀ q : Query) (f : ItemId → ItemId) : Prop extends Descends q₀ q f where
  /-- The rules can work on it. -/
  reducible : q.Reducible
  /-- A plain item is an old one. -/
  plain : ∀ {i x}, q.item? i = some x → x.kind ≠ .composite →
    ∃ x₀, q₀.item? i = some x₀ ∧ x.Resembles x₀
  /-- A vertex without annotation is in every composite one. -/
  composite : ∀ {v x}, q.item? v = some x → x.kind = .composite → ∃ u, q₀.IsBare u ∧ f u = v
  /-- A marker keeps an upper bound. The edge lay in no annotated subquery in which the vertex does
  not lie. -/
  marked : ∀ {v m}, q.itemMarker v = some m → ∃ e, f e = v ∧ q₀.Marks e m ∧
    ∀ c, q₀.subqueryBounds c ≠ none → q₀.Inner c e → q.itemOwner v = some c

namespace Lineal

/-- A query that a user writes descends from itself. -/
theorem refl (h : q.Written) (hf : q.Flat) (hs : q.Settling) : q.Lineal q id where
  toDescends := .refl h.wellFormed hf hs
  reducible := h.reducible
  plain hx _ := ⟨_,hx,.refl _⟩
  composite hx hk := absurd hk (h.item hx).plain
  marked {v m} hm := by
    obtain ⟨x,hx,hm⟩ := Option.bind_eq_some_iff.mp hm
    rw [(h.item hx).unmarked] at hm
    cases hm

theorem marked_step (h : q₀.Lineal q f) (h₀ : q₀.Regular) (hr : Reduction q rule a q' out)
    {m : Provenance} (hm : q'.itemMarker v = some m) :
    ∃ e, (f e).merged a.items out = v ∧ q₀.Marks e m ∧
      ∀ c, q₀.subqueryBounds c ≠ none → q₀.Inner c e → q'.itemOwner v = some c := by
  have hc := hr.changes h.wellFormed
  obtain ⟨z,hz,hzm⟩ := Option.bind_eq_some_iff.mp hm
  by_cases hv : v = out
  · obtain ⟨e,w,x,y,z',ends,b,max,name,hitems,hx,hy,he,hw,hb,hmax,hname,rfl⟩ :=
      hr.marking h.wellFormed (hv ▸ hz) hzm
    have hmerges := hr.merges h.wellFormed
    rw [hitems] at hmerges
    obtain ⟨t,ha⟩ := hmerges.absorbs_last (by
      rw [itemBounds_of_some hw,hb]
      exact Option.some_ne_none b)
    obtain ⟨l,hl,hlb,-⟩ := h.limb_names h₀ ha
    have hnames := h.reducible.nameAmong_eq hy he ha.far ha.near ha.ne
    rw [itemNames_of_some hw,hname] at hnames
    have hyk : y.kind ≠ .composite := by
      rw [Item.kind_edge_iff.mpr ⟨ends,he⟩]
      decide
    obtain ⟨y₀,hy₀,hsame⟩ := h.plain hy hyk
    obtain ⟨ends₀,he₀,hwritten⟩ := hsame.exists_ends he
    have hedge : f e = e := (h.edge ha.far.isEdge).2
    refine ⟨e,?_,⟨t,l,b,y₀,ends₀,hl,?_,hy₀,he₀,?_,hmax.symm⟩,fun c hb hin => ?_⟩
    · rw [hedge,hitems,ItemId.merged_of_mem (by simp),hv]
    · rw [hlb,itemBounds_of_some hw,hb]
    · exact (Option.some.inj hnames).trans (EdgeEnds.nameAt_of_written hwritten t)
    · have howner := hr.itemOwner_stays h.wellFormed (ha.near.isVertex h.wellFormed)
        (h.owner_of_ends h₀ ha.near hb hin) (by simp [hitems])
      rwa [hitems,ItemId.merged_of_mem (by simp),← hv] at howner
  · obtain ⟨hmem,x,hx,hf⟩ := hc.back hz hv
    obtain ⟨e,rfl,he,hin⟩ := h.marked (v:=v) (m:=m)
      (by rw [itemMarker_of_some hx,← hf.provenance,hzm])
    refine ⟨e,ItemId.merged_of_not_mem hmem,he,fun c hb hc => ?_⟩
    have howner := hin c hb hc
    cases hxv : x.isVertex with
    | true =>
      have hstays := hr.itemOwner_stays h.wellFormed ⟨x,hx,hxv⟩ howner fun hi => hmem (by simp [hi])
      rwa [ItemId.merged_of_not_mem hmem] at hstays
    | false => rw [hr.itemOwner_edge h.wellFormed ⟨x,hx,hxv⟩ hmem,howner]

/-- A query stays one that the first query has led to. -/
theorem step (h : q₀.Lineal q f) (h₀ : q₀.Regular) (hr : Reduction q rule a q' out) :
    q₀.Lineal q' fun i => (f i).merged a.items out where
  toDescends := h.toDescends.step hr
  reducible := (hr.changes h.wellFormed).reducible h.reducible (hr.applied h.wellFormed).2
  plain hz hk := by
    have hc := hr.changes h.wellFormed
    obtain ⟨hm,x,hx,hf⟩ := hc.back hz (hc.not_vertex hz hk)
    obtain ⟨x₀,hx₀,hsame⟩ := h.plain hx (hf.kind ▸ hk)
    exact ⟨x₀,hx₀,.of_follows hf hsame⟩
  composite {v z} hz hk := by
    have hc := hr.changes h.wellFormed
    by_cases hv : v = out
    · obtain ⟨w,hw,hbare⟩ := (hr.merges h.wellFormed).exists_bare
      obtain ⟨u,hu,rfl⟩ := h.bare hbare
      exact ⟨u,hu,hv ▸ ItemId.merged_of_mem hw⟩
    · obtain ⟨hm,x,hx,hf⟩ := hc.back hz hv
      obtain ⟨u,hu,rfl⟩ := h.composite hx (hf.kind ▸ hk)
      exact ⟨u,hu,ItemId.merged_of_not_mem hm⟩
  marked := h.marked_step h₀ hr

end Lineal

end Query

end GraphPattern
