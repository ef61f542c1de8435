import GraphPattern.Proofs.Validation.Rules

/-!
# The boundary of a subquery

An edge leads out of a subquery if exactly one of its ends lies inside. The anchors are the ends
outside and the inner vertices the ends inside, whichever container owns the edge and whichever way
it points, so no rule about them depends on the order in which they are found.
-/

namespace GraphPattern.Query

open Step

variable {q : Query} {c : ContainerId} {C : Container} {e i j u v : ItemId} {x : Item}

theorem liesIn_iff : q.liesIn c v = true ↔ q.itemOwner v = some c := by
  rw [liesIn,itemSatisfies,itemOwner]
  cases q.item? v <;> simp

/-- Whether exactly one end of an edge lies in a container. -/
def leaves (q : Query) (c : ContainerId) (e : ItemId) : Bool :=
  (q.pair? e).any fun ends => q.liesIn c ends.1 ≠ q.liesIn c ends.2

theorem edgeEnds_of_isEdge (he : q.IsEdge e) :
    ∃ ends, q.edgeEnds e = .ok ends ∧ q.pair? e = ends.both? := by
  obtain ⟨y,ends,hy,hends⟩ := isEdge_iff.mp he
  exact ⟨ends,edgeEnds_of_some hy hends,by rw [pair?,hy,Option.bind_some,hends,Option.bind_some]⟩

theorem boundaryEdges_ok (h : q.WellFormed) (hC : q.container? c = some C)
    (hs : C.isSubquery = true) :
    q.boundaryEdges c = .ok ((q.edges .whole).filter (q.leaves c)) := by
  rw [boundaryEdges,container_of_some hC,ok_bind,hs]
  simp only [Bool.not_true,Bool.false_eq_true,if_false]
  refine filterM_ok fun e he => ?_
  obtain ⟨ends,hends,hpair⟩ := edgeEnds_of_isEdge (h.mem_edges.mp he)
  rw [hends,ok_bind,leaves,hpair]
  cases ends.both? <;> rfl

/-- The vertices at the ends of the edges that lead out of a subquery. -/
theorem anchorVertices_ok (h : q.WellFormed) (hC : q.container? c = some C)
    (hs : C.isSubquery = true) :
    q.anchorVertices c = .ok ((((q.edges .whole).filter (q.leaves c)).filterMap q.pair?).map
      fun (a,b) => if q.liesIn c a then b else a).eraseDups := by
  obtain ⟨ends,hends,hall⟩ := mapM_ok (f:=q.edgeEnds)
    (P:=fun e ends => q.pair? e = ends.both?) (l:=(q.edges .whole).filter (q.leaves c))
    fun e he => edgeEnds_of_isEdge (h.mem_edges.mp (List.mem_filter.mp he).1)
  have hpairs : ∀ {es : List ItemId} {ends : List EdgeEnds},
      List.Forall₂ (fun e ends => q.pair? e = ends.both?) es ends →
        ends.filterMap EdgeEnds.both? = es.filterMap q.pair? := fun hall => by
    induction hall with
    | nil => rfl
    | cons hab _ ih => rw [List.filterMap_cons,List.filterMap_cons,hab,ih]
  rw [anchorVertices,boundaryEdges_ok h hC hs,ok_bind,hends,ok_bind,hpairs hall]
  rfl

/-- An edge that leads out of a subquery has one end inside and one outside, in either order. -/
theorem mem_leaving (h : q.WellFormed) {a b : ItemId} :
    (a,b) ∈ ((q.edges .whole).filter (q.leaves c)).filterMap q.pair? ↔
      ∃ e, q.Ends e true a ∧ q.Ends e false b ∧ (q.liesIn c a ≠ q.liesIn c b) := by
  rw [List.mem_filterMap]
  constructor
  · rintro ⟨e,he,hp⟩
    have hl := (List.mem_filter.mp he).2
    rw [leaves,hp,Option.any_some,decide_eq_true_eq] at hl
    exact ⟨e,(pair?_eq_some.mp hp).1,(pair?_eq_some.mp hp).2,hl⟩
  · rintro ⟨e,ha,hb,hl⟩
    have hp := pair?_eq_some.mpr ⟨ha,hb⟩
    refine ⟨e,List.mem_filter.mpr ⟨h.mem_edges.mpr ha.isEdge,?_⟩,hp⟩
    rw [leaves,hp,Option.any_some,decide_eq_true_eq]
    exact hl

/-- The edges that lead out of a subquery, seen from one of their ends inside. -/
theorem leadsOut_iff (h : q.WellFormed) : q.LeadsOut c v u ↔
    ∃ a b, (a,b) ∈ ((q.edges .whole).filter (q.leaves c)).filterMap q.pair? ∧
      ((a = v ∧ b = u) ∨ (a = u ∧ b = v)) ∧ q.liesIn c v = true ∧ q.liesIn c u = false := by
  simp only [mem_leaving h,← Bool.not_eq_true,liesIn_iff]
  constructor
  · rintro ⟨e,s,hv,hu,hvc,huc⟩
    have hne : q.liesIn c v ≠ q.liesIn c u := fun he => huc (by
      rwa [← liesIn_iff,← he,liesIn_iff])
    cases s with
    | true => exact ⟨v,u,⟨e,hv,hu,hne⟩,.inl ⟨rfl,rfl⟩,hvc,huc⟩
    | false => exact ⟨u,v,⟨e,hu,hv,hne.symm⟩,.inr ⟨rfl,rfl⟩,hvc,huc⟩
  · rintro ⟨a,b,⟨e,ha,hb,-⟩,(⟨rfl,rfl⟩|⟨rfl,rfl⟩),hvc,huc⟩
    · exact ⟨e,true,ha,hb,hvc,huc⟩
    · exact ⟨e,false,hb,ha,hvc,huc⟩

/-- The anchors of a subquery are the vertices to which edges lead out of it. -/
theorem mem_anchors (h : q.WellFormed) :
    u ∈ ((((q.edges .whole).filter (q.leaves c)).filterMap q.pair?).map
      fun (a,b) => if q.liesIn c a then b else a).eraseDups ↔ ∃ v, q.LeadsOut c v u := by
  rw [List.mem_eraseDups,List.mem_map]
  simp only [leadsOut_iff h]
  constructor
  · rintro ⟨⟨a,b⟩,hab,hu⟩
    obtain ⟨e,-,-,hne⟩ := (mem_leaving h).mp hab
    cases hac : q.liesIn c a with
    | true =>
      simp only [hac,if_true] at hu
      subst hu
      exact ⟨a,a,b,hab,.inl ⟨rfl,rfl⟩,hac,by simpa [hac] using hne⟩
    | false =>
      simp only [hac,Bool.false_eq_true,if_false] at hu
      subst hu
      exact ⟨b,a,b,hab,.inr ⟨rfl,rfl⟩,by simpa [hac] using hne,hac⟩
  · rintro ⟨v,a,b,hab,(⟨rfl,rfl⟩|⟨rfl,rfl⟩),hv,hu⟩
    · exact ⟨_,hab,by simp [hv]⟩
    · exact ⟨_,hab,by simp [hu]⟩

/-- The inner vertices of a subquery are the vertices from which edges lead out of it. -/
theorem mem_innerVertices (h : q.WellFormed) {anchors : List ItemId}
    (hanchors : ∀ u, u ∈ anchors ↔ ∃ v, q.LeadsOut c v u) :
    v ∈ q.innerVertices ((q.edges .whole).filter (q.leaves c)) anchors ↔ ∃ u, q.LeadsOut c v u := by
  have hinside : ∀ {a}, q.liesIn c a = true → a ∉ anchors := fun {a} ha hm => by
    obtain ⟨v,e,s,-,-,-,hn⟩ := (hanchors a).mp hm
    exact hn (liesIn_iff.mp ha)
  have hpairs : ∀ es : List ItemId,
      (es.filterMap fun e => (q.item? e).bind Item.ends?).filterMap EdgeEnds.both? =
        es.filterMap q.pair? := fun es => List.filterMap_filterMap
  rw [innerVertices,hpairs,List.mem_eraseDups,List.mem_map]
  constructor
  · rintro ⟨⟨a,b⟩,hab,hv⟩
    obtain ⟨e,-,-,hne⟩ := (mem_leaving h).mp hab
    cases hac : q.liesIn c a with
    | true =>
      simp only [if_neg (hinside hac)] at hv
      subst hv
      exact ⟨b,(leadsOut_iff h).mpr ⟨a,b,hab,.inl ⟨rfl,rfl⟩,hac,by simpa [hac] using hne⟩⟩
    | false =>
      have hout := (leadsOut_iff h).mpr ⟨a,b,hab,.inr ⟨rfl,rfl⟩,by simpa [hac] using hne,hac⟩
      simp only [if_pos ((hanchors a).mpr ⟨b,hout⟩)] at hv
      subst hv
      exact ⟨a,hout⟩
  · rintro ⟨u,hout⟩
    have hu := (hanchors u).mpr ⟨v,hout⟩
    obtain ⟨a,b,hab,(⟨rfl,rfl⟩|⟨rfl,rfl⟩),hv,-⟩ := (leadsOut_iff h).mp hout
    · exact ⟨_,hab,if_neg (hinside hv)⟩
    · exact ⟨_,hab,if_pos hu⟩

theorem annotatedNames_eq_nil {is : List ItemId} :
    q.annotatedNames is = [] ↔ ∀ i ∈ is, ¬q.Annotated i := by
  rw [annotatedNames,List.map_eq_nil_iff,List.filter_eq_nil_iff]
  constructor
  · intro hnone i hi ha
    cases hx : q.item? i with
    | none => exact ha (by rw [itemBounds,hx]; rfl)
    | some x => exact hnone x (List.mem_filterMap.mpr ⟨i,hi,hx⟩) ((isAnnotated_iff hx).mpr ha)
  · intro hnone x hx ha
    obtain ⟨i,hi,hx⟩ := List.mem_filterMap.mp hx
    exact hnone i hi ((isAnnotated_iff hx).mp ha)

/-- The boundary of a subquery keeps its rules if no edge leads out from an annotated vertex, nor to
one if the subquery is annotated. -/
theorem boundaryViolations_iff (h : q.WellFormed) (hC : q.container? c = some C)
    (hs : C.isSubquery = true) : q.boundaryViolations c C = [] ↔
      (∀ {v u}, q.LeadsOut c v u → ¬q.Annotated v) ∧
        (q.subqueryBounds c ≠ none → ∀ {v u}, q.LeadsOut c v u → ¬q.Annotated u) := by
  rw [boundaryViolations,boundaryEdges_ok h hC hs,anchorVertices_ok h hC hs]
  have hanchors := fun u => mem_anchors h (c:=c) (u:=u)
  simp only [List.append_eq_nil_iff,List.map_eq_nil_iff,annotatedNames_eq_nil,
    mem_innerVertices h hanchors,forall_exists_index,and_comm (a:=(if _ then _ else _) = [])]
  refine and_congr Iff.rfl ?_
  rw [subqueryBounds_of_some hC,← Option.isSome_iff_ne_none]
  cases C.bounds with
  | none => simp
  | some b =>
    simp only [Option.isSome_some,if_true,List.map_eq_nil_iff,annotatedNames_eq_nil,hanchors,
      forall_exists_index,forall_const]
    exact forall_comm

/-- The subqueries are the containers beside the root. -/
theorem isSubquery_iff (h : q.WellFormed) (hC : q.container? c = some C) :
    C.isSubquery = true ↔ c ≠ .root := by
  have hparent : C.isSubquery = C.parent?.isSome := by
    cases C with
    | mk kind => cases kind <;> rfl
  rw [hparent]
  constructor
  · rintro hs rfl
    obtain ⟨R,hR,hp⟩ := h.nested.root
    rw [hC] at hR
    cases hR
    rw [hp] at hs
    cases hs
  · intro hne
    obtain ⟨p,P,hp,-⟩ := h.nested.parent hC hne
    rw [hp]
    rfl

theorem vertices_isEmpty_iff (h : q.WellFormed) (hC : q.container? c = some C) :
    C.vertices.isEmpty = false ↔ ∃ v, q.IsVertex v ∧ q.itemOwner v = some c := by
  rw [List.isEmpty_eq_false_iff_exists_mem]
  constructor
  · rintro ⟨v,hv⟩
    obtain ⟨x,hx,hxv,hxc⟩ := h.owned.member (b:=true) hC hv
    exact ⟨v,⟨x,hx,hxv⟩,(itemOwner_of_some hx).trans hxc⟩
  · rintro ⟨v,⟨x,hx,hxv⟩,hvc⟩
    obtain ⟨d,D,hd,hD,hm⟩ := h.owned.owner hx
    rw [itemOwner_of_some hx,hd] at hvc
    cases hvc
    rw [hC] at hD
    cases hD
    rw [hxv] at hm
    exact ⟨v,hm⟩

theorem parent_isSubquery_iff (h : q.WellFormed) (hC : q.container? c = some C) :
    (C.parent?.bind q.container?).any Container.isSubquery = false ↔
      ∀ {p}, q.Holds p c → p = .root := by
  have hparent : ∀ {p}, q.Holds p c ↔ C.parent? = some p := by
    exact ⟨fun ⟨P,hP,hm⟩ => (h.nested.mem_subqueries hP hC).mp hm,h.nested.listed hC⟩
  simp only [hparent]
  cases hp : C.parent? with
  | none => simp
  | some p =>
    obtain ⟨P,hP,-⟩ := h.nested.listed hC hp
    rw [Option.bind_some,hP,Option.any_some,← Bool.not_eq_true,isSubquery_iff h hP,not_not]
    simp

/-- A container keeps its rules if there is a vertex in it, it lies in the root, and its boundary
keeps them. -/
theorem containerViolations_iff (h : q.WellFormed) (hC : q.container? c = some C) :
    q.containerViolations c C = [] ↔ q.KeepsContainer c := by
  have hboundary : (if C.isSubquery then q.boundaryViolations c C else []) = [] ↔
      (c ≠ .root → ∀ {v u}, q.LeadsOut c v u → ¬q.Annotated v) ∧
        (q.subqueryBounds c ≠ none → ∀ {v u}, q.LeadsOut c v u → ¬q.Annotated u) := by
    by_cases hroot : c = .root
    · have hs : ¬C.isSubquery = true := fun hs => (isSubquery_iff h hC).mp hs hroot
      rw [if_neg hs,hroot]
      exact iff_of_true rfl ⟨fun hne => absurd rfl hne,
        fun hb => absurd h.subqueryBounds_root hb⟩
    · have hs := (isSubquery_iff h hC).mpr hroot
      rw [if_pos hs,boundaryViolations_iff h hC hs]
      exact and_congr_left fun _ => ⟨fun hin _ => hin,fun hin => hin hroot⟩
  rw [containerViolations,List.append_eq_nil_iff,List.append_eq_nil_iff,breach_iff,breach_iff,
    hboundary,Bool.not_eq_true,Bool.not_eq_true,vertices_isEmpty_iff h hC,
    parent_isSubquery_iff h hC]
  exact ⟨fun ⟨⟨hi,hf⟩,hn,ho⟩ => ⟨hi,hf,hn,ho⟩,fun hk => ⟨⟨hk.1,hk.2⟩,hk.3,hk.4⟩⟩

end GraphPattern.Query
