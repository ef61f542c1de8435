import GraphPattern.Proofs.Rule.Applied

/-!
# Listing reductions

Asked about a vertex of a query that plans can be made of, every rule of the library answers, and
every application that it lists is a reduction.
-/

namespace GraphPattern

/-- A query at which every rule of the library answers, and carries out what it lists. -/
structure Query.Answerable (q : Query) : Prop where
  /-- It is well formed. -/
  wellFormed : q.WellFormed
  /-- Every constraint is found again. -/
  comparable : ∀ {c C k}, q.container? c = some C → k ∈ C.constraints → k.sameRelation k = true
  /-- An edge from another vertex to one with an upper bound names it. -/
  named : ∀ {e u v y w ends b}, q.item? e = some y → y.ends? = some ends →
    ends.opposite? v = some u → u ≠ v → q.item? u = some w → w.bounds = some b →
      b.max.isSome = true → (ends.nameAmong? w.names).isSome = true

namespace Rule

open Query Step

variable {q : Query} {v : ItemId} {x : Item}

/-- An application is a reduction. -/
def Reduces (q : Query) (rule : Rule) (a : Application) : Prop :=
  ∃ q' out, Reduction q rule a q' out

/-- What is to be shown of a rule: it answers, and with nothing but reductions. -/
def Lists (q : Query) (v : ItemId) (rule : Rule) : Prop :=
  ∃ as, rule.applications q v = .ok as ∧ ∀ a ∈ as, Reduces q rule a

/-- Nothing is listed. -/
theorem none_listed {P : Application → Prop} : ∀ a ∈ ([] : List Application), P a :=
  fun _ ha => absurd ha List.not_mem_nil

theorem ofItems_one (hx : q.item? v = some x) :
    Application.ofItems q [v] = .ok ⟨[v],[x.joinedName],none⟩ := by
  simp [Application.ofItems,item_of_some hx]

theorem ofItems_two {e : ItemId} {y : Item} (hx : q.item? v = some x) (hy : q.item? e = some y) :
    Application.ofItems q [v,e] = .ok ⟨[v,e],[x.joinedName,y.joinedName],none⟩ := by
  simp [Application.ofItems,item_of_some hx,item_of_some hy]

theorem ofItems_three {e u : ItemId} {y w : Item} (hx : q.item? v = some x)
    (hy : q.item? e = some y) (hw : q.item? u = some w) : Application.ofItems q [v,e,u] =
      .ok ⟨[v,e,u],[x.joinedName,y.joinedName,w.joinedName],none⟩ := by
  simp [Application.ofItems,item_of_some hx,item_of_some hy,item_of_some hw]

/-- A rule that lists nothing lists nothing but reductions. -/
theorem lists_nil {rule : Rule} (h : rule.applications q v = .ok []) : Lists q v rule :=
  ⟨[],h,none_listed⟩

theorem applications_getVertex {edges : List ItemId} {items : List Item} (hx : q.item? v = some x)
    (he : x.edges? = some edges) (hi : edges.mapM q.item = .ok items) :
    getVertex.applications q v =
      if (!x.isVertex || x.isComposite || x.isAnnotated) = true then .ok []
      else if items.any Item.isMarked = true then .ok []
      else .ok [⟨[v],[x.joinedName],none⟩] := by
  change GetVertex.applications q v = _
  rw [GetVertex.applications,item_of_some hx,ok_bind]
  split
  · rfl
  · rw [vertexEdges_of_some hx he,ok_bind,hi,ok_bind]
    split
    · rfl
    · rw [ofItems_one hx]
      rfl

theorem lists_getVertex (h : q.WellFormed) (hx : q.item? v = some x) (hv : x.isVertex = true) :
    Lists q v getVertex := by
  obtain ⟨edges,he⟩ := Item.isVertex_iff.mp hv
  obtain ⟨c,C,hc,-⟩ := h.owner hx
  have hitems : ∀ e ∈ edges, ∃ y, q.item e = .ok y ∧ q.item? e = some y := by
    intro e hm
    obtain ⟨y,hy,-⟩ := (h.incident.joined hx he).mp hm
    exact ⟨y,item_of_some hy,hy⟩
  obtain ⟨items,hi,hall⟩ := mapM_ok hitems
  have happ := applications_getVertex hx he hi
  by_cases h1 : (!x.isVertex || x.isComposite || x.isAnnotated) = true
  · exact lists_nil (by rw [happ,if_pos h1])
  · by_cases h2 : items.any Item.isMarked = true
    · exact lists_nil (by rw [happ,if_neg h1,if_pos h2])
    · rw [if_neg h1,if_neg h2] at happ
      refine ⟨_,happ,fun a ha => ?_⟩
      cases List.mem_singleton.mp ha
      simp only [Bool.or_eq_true,Bool.not_eq_true',not_or,hv,Bool.not_eq_true,
        Item.isComposite,decide_eq_false_iff_not,Item.isAnnotated,Option.isSome_eq_false_iff,
        Option.isNone_iff_eq_none] at h1
      have hk : x.kind = .vertex := by
        cases hk : x.kind with
        | vertex => rfl
        | composite => exact absurd hk h1.1.2
        | edge =>
          obtain ⟨ends,hends⟩ := Item.kind_edge_iff.mp hk
          rw [Item.not_isVertex_iff.mpr ⟨ends,hends⟩] at hv
          cases hv
      refine ⟨_,_,.getVertex hx hk h1.2 he hc fun e hm y hy => ?_⟩
      -- The edges were looked at one by one, and none of them is marked.
      obtain ⟨y',hy',hye⟩ := exists_right hall hm
      rw [hy] at hye
      cases hye
      have hmarked : y.isMarked = false := by
        rw [← Bool.not_eq_true]
        exact fun hmark => h2 (List.any_eq_true.mpr ⟨y,hy',hmark⟩)
      simpa [Item.isMarked] using hmarked

theorem applications_applyUpperLimit (hx : q.item? v = some x) :
    applyUpperLimit.applications q v =
      if (!x.isComposite || x.isAnnotated || !x.isMarked) = true then .ok []
      else .ok [⟨[v],[x.joinedName],none⟩] := by
  change ApplyUpperLimit.applications q v = _
  rw [ApplyUpperLimit.applications,item_of_some hx,ok_bind]
  split
  · rfl
  · rw [ofItems_one hx]
    rfl

theorem lists_applyUpperLimit (hx : q.item? v = some x) : Lists q v applyUpperLimit := by
  have happ := applications_applyUpperLimit hx
  by_cases h1 : (!x.isComposite || x.isAnnotated || !x.isMarked) = true
  · exact lists_nil (by rw [happ,if_pos h1])
  · rw [if_neg h1] at happ
    refine ⟨_,happ,fun a ha => ?_⟩
    cases List.mem_singleton.mp ha
    simp only [Bool.or_eq_true,Bool.not_eq_true',not_or,Bool.not_eq_false,Bool.not_eq_true,
      Item.isComposite,decide_eq_true_eq,Item.isAnnotated,Option.isSome_eq_false_iff,
      Option.isNone_iff_eq_none,Item.isMarked] at h1
    obtain ⟨marker,hmark⟩ := Option.ne_none_iff_exists'.mp h1.2
    exact ⟨_,_,.applyUpperLimit hx h1.1.1 h1.1.2 hmark⟩

theorem holdsOnly_iff {C : Container} : EliminateSubquery.holdsOnly C v = true ↔
    (∃ p, C.parent? = some p) ∧ C.vertices = [v] ∧ C.edges = [] ∧ C.subqueries = [] ∧
      C.constraints = [] := by
  have hs : C.isSubquery = true ↔ ∃ p, C.parent? = some p := by
    cases C with
    | mk kind => cases kind <;> simp [Container.isSubquery,Container.parent?]
  simp only [EliminateSubquery.holdsOnly,Bool.and_eq_true,decide_eq_true_eq,
    List.isEmpty_iff,hs]
  tauto

theorem applications_eliminateSubquery {c : ContainerId} {C : Container}
    (hx : q.item? v = some x) (hc : x.container = some c) (hC : q.container? c = some C) :
    eliminateSubquery.applications q v =
      if (!isSettled x) = true then .ok []
      else if (!EliminateSubquery.holdsOnly C v) = true then .ok []
      else .ok [⟨[v],[x.joinedName],none⟩] := by
  change EliminateSubquery.applications q v = _
  rw [EliminateSubquery.applications,item_of_some hx,ok_bind]
  split
  · rfl
  · simp only [hc,container_of_some hC,ok_bind]
    split
    · rfl
    · rw [ofItems_one hx]
      rfl

theorem lists_eliminateSubquery (h : q.WellFormed) (hx : q.item? v = some x) :
    Lists q v eliminateSubquery := by
  obtain ⟨c,C,hc,hC⟩ := h.owner hx
  have happ := applications_eliminateSubquery hx hc hC
  by_cases h1 : isSettled x = true
  · by_cases h2 : EliminateSubquery.holdsOnly C v = true
    · simp only [h1,h2,Bool.not_true,Bool.false_eq_true,if_false] at happ
      refine ⟨_,happ,fun a ha => ?_⟩
      cases List.mem_singleton.mp ha
      obtain ⟨⟨p,hp⟩,halone⟩ := holdsOnly_iff.mp h2
      exact ⟨_,_,.eliminateSubquery hx (isSettled_iff.mp h1) hc hC hp halone⟩
    · exact lists_nil (by simp [happ,h1,h2])
  · exact lists_nil (by simp [happ,h1])

theorem applications_processConstraint (hx : q.item? v = some x) :
    processConstraint.applications q v = if (!isSettled x) = true then .ok []
      else .ok (((q.constraints .whole).filter fun c =>
        c.bounds.isNone && c.itemNames.all x.hasName).map fun c =>
          ⟨[v],[x.joinedName],some c⟩) := by
  change ProcessConstraint.applications q v = _
  rw [ProcessConstraint.applications,item_of_some hx,ok_bind]
  split
  · rfl
  · simp only [ofItems_one hx,ok_bind,Application.withConstraint,except_pure]
    exact List.mapM_pure

/-- A constraint that is listed has no annotation. It is processed unless it is found nowhere. -/
theorem processConstraint_listed {as : List Application} {a : Application} (hx : q.item? v = some x)
    (has : processConstraint.applications q v = .ok as) (ha : a ∈ as) :
    ∃ k, a.constraint = some k ∧ k ∈ q.constraints .whole ∧ k.bounds = none ∧
      ((∃ q', Reduction q processConstraint a q' v) ∨
        ((∃ e, processConstraint.apply q a = .error e) ∧
          ∀ c C, q.container? c = some C → ∀ l ∈ C.constraints, k.sameRelation l = false)) := by
  rw [applications_processConstraint hx] at has
  split at has
  · cases has
    cases ha
  · rename_i h1
    have hset : isSettled x = true := by simpa using h1
    cases has
    obtain ⟨k,hk,rfl⟩ := List.mem_map.mp ha
    obtain ⟨hdecl,hcond⟩ := List.mem_filter.mp hk
    simp only [Bool.and_eq_true,Option.isNone_iff_eq_none,List.all_eq_true,Item.hasName,
      decide_eq_true_eq] at hcond
    refine ⟨k,rfl,hdecl,hcond.1,?_⟩
    rcases removeConstraint_cases q k with ⟨⟨e,he⟩,hnone⟩|⟨c,C,found,rest,hC,hfirst,hcarried⟩
    · refine .inr ⟨⟨e,?_⟩,hnone⟩
      change ProcessConstraint.apply q _ = _
      simp only [ProcessConstraint.apply,Application.item,List.getElem?_cons_zero,except_pure,
        ok_bind,Application.settled,Reduced.ofEdit]
      rw [EStateM.run,bind_of_error he]
    · exact .inl ⟨_,.processConstraint hx (isSettled_iff.mp hset) hdecl hcond.1 hcond.2 hC hfirst
        hcarried⟩

/-- A constraint is processed unless it is found nowhere, because it is unlike itself. -/
theorem tries_processConstraint (hx : q.item? v = some x) :
    ∃ as, processConstraint.applications q v = .ok as ∧ ∀ a ∈ as, Reduces q processConstraint a ∨
      ((∃ e, processConstraint.apply q a = .error e) ∧
        ∃ c C k, q.container? c = some C ∧ k ∈ C.constraints ∧ k.sameRelation k = false) := by
  have hanswers : ∃ as, processConstraint.applications q v = .ok as := by
    rw [applications_processConstraint hx]
    split <;> exact ⟨_,rfl⟩
  obtain ⟨as,has⟩ := hanswers
  refine ⟨as,has,fun a ha => ?_⟩
  obtain ⟨k,-,hk,-,⟨q',hr⟩|⟨he,hnone⟩⟩ := processConstraint_listed hx has ha
  · exact .inl ⟨q',v,hr⟩
  · obtain ⟨c,C,hc,hm⟩ := exists_container_of_mem hk
    exact .inr ⟨he,c,C,k,hc,hm,hnone c C hc k hm⟩

theorem lists_processConstraint (h : q.Answerable) (hx : q.item? v = some x) :
    Lists q v processConstraint := by
  obtain ⟨as,has,hall⟩ := tries_processConstraint hx
  refine ⟨as,has,fun a ha => ?_⟩
  rcases hall a ha with hr|⟨-,c,C,k,hC,hk,hself⟩
  · exact hr
  · -- The constraint itself is found, whatever else is.
    rw [h.comparable hC hk] at hself
    cases hself

/-! ## Rules about edges -/

/-- An edge of a vertex, with its ends. -/
theorem edge_of_listed (h : q.WellFormed) (hx : q.item? v = some x) {edges : List ItemId}
    (he : x.edges? = some edges) {e : ItemId} (hm : e ∈ edges) :
    ∃ y ends c, q.item? e = some y ∧ y.ends? = some ends ∧ y.container = some c ∧
      ends.Touches v := by
  obtain ⟨y,hy,ends,hends,ht⟩ := (h.incident.joined hx he).mp hm
  obtain ⟨c,C,hc,-⟩ := h.owner hy
  exact ⟨y,ends,c,hy,hends,hc,ht⟩

theorem crossesBoundary_ok {e u : ItemId} {y w : Item} {ends : EdgeEnds}
    (hy : q.item? e = some y) (he : y.ends? = some ends) (ho : ends.opposite? v = some u)
    (hx : q.item? v = some x) (hw : q.item? u = some w) :
    q.crossesBoundary e = .ok (decide (x.container ≠ w.container)) := by
  rw [crossesBoundary,edgeEnds_of_some hy he,ok_bind]
  rcases EdgeEnds.opposite?_eq_some ho with ⟨h1,h2⟩|⟨h1,h2⟩
  · simp only [EdgeEnds.both?_eq_some.mpr ⟨h1,h2⟩,hx,hw]
    rfl
  · simp only [EdgeEnds.both?_eq_some.mpr ⟨h1,h2⟩,hx,hw,ne_comm (a:=w.container)]
    rfl

/-- Whether an edge is a self-loop at the vertex. -/
def loops (q : Query) (v e : ItemId) : Bool :=
  ((q.item? e).bind Item.ends?).any fun ends => ends.opposite? v = some v

/-- Whether an edge has neither annotation nor marker. -/
def plainEdge (q : Query) (e : ItemId) : Bool :=
  (q.item? e).any fun y => !y.isAnnotated && !y.isMarked

/-- The self-loops at a settled vertex that have neither annotation nor marker are listed. -/
theorem applications_absorbSelfLoop (h : q.WellFormed) (hx : q.item? v = some x)
    (h1 : isSettled x = true) {edges : List ItemId} (he : x.edges? = some edges) :
    absorbSelfLoop.applications q v =
      ((edges.filter (loops q v)).filter (plainEdge q)).mapM fun e =>
        Application.ofItems q [v,e] := by
  have hloops : q.selfLoops v = .ok (edges.filter (loops q v)) := by
    rw [selfLoops,edgesBetween,vertexEdges_of_some hx he,ok_bind]
    refine filterM_ok fun e hm => ?_
    obtain ⟨y,ends,c,hy,hye,-,-⟩ := edge_of_listed h hx he hm
    rw [edgeEnds_of_some hy hye,ok_bind,loops,hy,Option.bind_some,hye]
    rfl
  change AbsorbSelfLoop.applications q v = _
  rw [AbsorbSelfLoop.applications,item_of_some hx,ok_bind,h1,hloops]
  simp only [Bool.not_true,Bool.false_eq_true,if_false,ok_bind]
  rw [filterM_ok (P:=plainEdge q) fun e hm => ?_,ok_bind]
  obtain ⟨y,ends,c,hy,-⟩ := edge_of_listed h hx he (List.mem_filter.mp hm).1
  rw [item_of_some hy,ok_bind,plainEdge,hy]
  rfl

theorem lists_absorbSelfLoop (h : q.WellFormed) (hx : q.item? v = some x) (hv : x.isVertex = true) :
    Lists q v absorbSelfLoop := by
  by_cases h1 : isSettled x = true
  · obtain ⟨edges,he⟩ := Item.isVertex_iff.mp hv
    obtain ⟨as,has,hall⟩ := mapM_ok (f:=fun edge => Application.ofItems q [v,edge])
      (P:=fun _ a => Reduces q absorbSelfLoop a)
      (l:=(edges.filter (loops q v)).filter (plainEdge q)) fun e hm => by
      obtain ⟨hm,hplain⟩ := List.mem_filter.mp hm
      obtain ⟨hm,hloop⟩ := List.mem_filter.mp hm
      obtain ⟨y,ends,c,hy,hye,hc,-⟩ := edge_of_listed h hx he hm
      simp only [loops,plainEdge,hy,Option.bind_some,hye,Option.any_some,decide_eq_true_eq,
        Bool.and_eq_true,Bool.not_eq_true',Item.isAnnotated,Item.isMarked,Option.isSome_eq_false_iff,
        Option.isNone_iff_eq_none] at hloop hplain
      have hboth : ends.source = some v ∧ ends.target = some v :=
        (EdgeEnds.opposite?_eq_some hloop).elim id fun h => h
      exact ⟨_,ofItems_two hx hy,_,_,.absorbSelfLoop hx (isSettled_iff.mp h1) hy hye hboth hc
        hplain.1 hplain.2⟩
    refine ⟨as,(applications_absorbSelfLoop h hx h1 he).trans has,fun a ha => ?_⟩
    obtain ⟨-,-,hr⟩ := exists_left hall ha
    exact hr
  · refine lists_nil ?_
    change AbsorbSelfLoop.applications q v = _
    rw [AbsorbSelfLoop.applications,item_of_some hx,ok_bind]
    simp [h1]

/-- A vertex at the other end has the first one at its other end. -/
theorem opposite?_symm {ends : EdgeEnds} {u : ItemId} (h : ends.opposite? v = some u) :
    ends.opposite? u = some v := by
  rcases EdgeEnds.opposite?_eq_some h with ⟨h1,h2⟩|⟨h1,h2⟩
  · rw [EdgeEnds.opposite?,EdgeEnds.both?_eq_some.mpr ⟨h1,h2⟩]
    by_cases hne : v = u <;> simp [hne]
  · rw [EdgeEnds.opposite?,EdgeEnds.both?_eq_some.mpr ⟨h1,h2⟩]
    simp

/-- What there is at the other end of an edge. -/
theorem absorbable_of_opposite (h : q.WellFormed) (hx : q.item? v = some x)
    (hv : x.isVertex = true) {e u : ItemId} {y : Item} {ends : EdgeEnds} {c : ContainerId}
    (hy : q.item? e = some y) (hye : y.ends? = some ends) (hc : y.container = some c)
    (ho : ends.opposite? v = some u) (hne : u ≠ v) :
    ∃ w edges d, q.Absorbable e u v y w x ends edges c d := by
  have ht : ends.Touches u := by
    rcases EdgeEnds.opposite?_eq_some ho with ⟨h1,h2⟩|⟨h1,h2⟩
    · exact .inr h2
    · exact .inl h1
  obtain ⟨w,hw,hwv⟩ := h.incident.ended hy ⟨ends,hye,ht⟩
  obtain ⟨edges,hedges⟩ := Item.isVertex_iff.mp hwv
  obtain ⟨d,D,hd,-⟩ := h.owner hw
  exact ⟨w,edges,d,hy,hye,hc,opposite?_symm ho,Ne.symm hne,hw,hedges,hd,hx,hv⟩

theorem takesPart_ok {u : ItemId} {w : Item} (hw : q.item? u = some w) :
    CollapseEdge.takesPart q u = .ok (isSettled w) := by
  rw [CollapseEdge.takesPart,item_of_some hw,ok_bind]
  rfl

theorem alongEdge_collapse (h : q.WellFormed) (hx : q.item? v = some x) (h1 : isSettled x = true)
    (hv : x.isVertex = true) {edges : List ItemId} (he : x.edges? = some edges) {e : ItemId}
    (hm : e ∈ edges) : ∃ as, CollapseEdge.alongEdge q v e = .ok as ∧
      ∀ a ∈ as, Reduces q collapseEdge a := by
  obtain ⟨y,ends,c,hy,hye,hc,-⟩ := edge_of_listed h hx he hm
  rw [CollapseEdge.alongEdge,item_of_some hy,ok_bind,hye,Option.bind_some]
  cases ho : ends.opposite? v with
  | none => exact ⟨[],rfl,none_listed⟩
  | some u =>
    simp only
    by_cases h2 : (decide (u = v) || y.isMarked) = true
    · exact ⟨[],by rw [if_pos h2]; rfl,none_listed⟩
    · rw [if_neg h2]
      simp only [Bool.or_eq_true,decide_eq_true_eq,not_or,Item.isMarked,Bool.not_eq_true,
        Option.isSome_eq_false_iff,Option.isNone_iff_eq_none] at h2
      obtain ⟨w,edges,d,hable⟩ := absorbable_of_opposite h hx hv hy hye hc ho h2.1
      rw [crossesBoundary_ok hy hye ho hx hable.absorbed,ok_bind,takesPart_ok hable.absorbed,
        ok_bind]
      by_cases h3 : x.container = w.container
      · by_cases h4 : isSettled w = true
        · refine ⟨[⟨[v,e,u],[x.joinedName,y.joinedName,w.joinedName],none⟩],?_,fun a ha => ?_⟩
          · simp [h3,h4,ofItems_three hx hy hable.absorbed]
          · cases List.mem_singleton.mp ha
            exact ⟨_,_,.collapseEdge hable (isSettled_iff.mp h1) (isSettled_iff.mp h4) h2.2 h3⟩
        · exact ⟨[],by simp [h3,h4],none_listed⟩
      · exact ⟨[],by simp [h3],none_listed⟩

theorem applications_collapseEdge (hx : q.item? v = some x) (h1 : isSettled x = true)
    {edges : List ItemId} (he : x.edges? = some edges) {bss : List (List Application)}
    (hbss : edges.mapM (CollapseEdge.alongEdge q v) = .ok bss) :
    collapseEdge.applications q v = .ok bss.flatten := by
  change CollapseEdge.applications q v = _
  rw [CollapseEdge.applications,takesPart_ok hx,ok_bind,h1]
  simp only [Bool.not_true,Bool.false_eq_true,if_false]
  rw [vertexEdges_of_some hx he,ok_bind,hbss]
  rfl

theorem lists_collapseEdge (h : q.WellFormed) (hx : q.item? v = some x) (hv : x.isVertex = true) :
    Lists q v collapseEdge := by
  by_cases h1 : isSettled x = true
  · obtain ⟨edges,he⟩ := Item.isVertex_iff.mp hv
    obtain ⟨bss,hbss,hall⟩ := mapM_ok (f:=CollapseEdge.alongEdge q v)
      (P:=fun _ as => ∀ a ∈ as, Reduces q collapseEdge a) (l:=edges)
      fun e hm => alongEdge_collapse h hx h1 hv he hm
    refine ⟨bss.flatten,applications_collapseEdge hx h1 he hbss,fun a ha => ?_⟩
    obtain ⟨as,has,ha⟩ := List.mem_flatten.mp ha
    obtain ⟨-,-,hr⟩ := exists_left hall has
    exact hr a ha
  · refine lists_nil ?_
    change CollapseEdge.applications q v = _
    rw [CollapseEdge.applications,takesPart_ok hx,ok_bind]
    simp [h1]

/-- The name written for an end at a vertex is found among the names of the vertex. -/
theorem nameAmong?_isSome (h : q.Reducible) {e u : ItemId} {y w : Item} {ends : EdgeEnds}
    (hy : q.item? e = some y) (hye : y.ends? = some ends) (hw : q.item? u = some w)
    (ht : ends.Touches u) : (ends.nameAmong? w.names).isSome = true := by
  rw [EdgeEnds.nameAmong?]
  rcases ht with hs|ht
  · obtain ⟨w',hw',hn⟩ := h.source hy hye hs
    rw [hw] at hw'
    cases hw'
    rw [if_pos hn]
    rfl
  · obtain ⟨w',hw',hn⟩ := h.target hy hye ht
    rw [hw] at hw'
    cases hw'
    rw [if_pos hn]
    split <;> rfl

/-- An annotated vertex is absorbed unless the edge names no name of it. -/
theorem alongEdge_annotated (h : q.WellFormed) (hx : q.item? v = some x)
    (h1 : isSettled x = true) (hv : x.isVertex = true) {edges : List ItemId}
    (he : x.edges? = some edges) {e : ItemId} (hm : e ∈ edges) :
    ∃ as, AbsorbAnnotatedVertex.alongEdge q v e = .ok as ∧
      ∀ a ∈ as, Reduces q absorbAnnotatedVertex a ∨
        ((∃ e, absorbAnnotatedVertex.apply q a = .error e) ∧ ¬q.Answerable) := by
  obtain ⟨y,ends,c,hy,hye,hc,-⟩ := edge_of_listed h hx he hm
  rw [AbsorbAnnotatedVertex.alongEdge,item_of_some hy,ok_bind,hye,Option.bind_some]
  cases ho : ends.opposite? v with
  | none => exact ⟨[],rfl,none_listed⟩
  | some u =>
    simp only
    by_cases h2 : (decide (u = v) || !y.isAnnotated || y.isMarked) = true
    · exact ⟨[],by rw [if_pos h2]; rfl,none_listed⟩
    · rw [if_neg h2]
      simp only [Bool.or_eq_true,decide_eq_true_eq,not_or,Item.isMarked,Bool.not_eq_true,
        Bool.not_eq_true',Item.isAnnotated,Option.isSome_eq_false_iff,
        Option.isNone_iff_eq_none] at h2
      obtain ⟨w,edges',d,hable⟩ := absorbable_of_opposite h hx hv hy hye hc ho h2.1.1
      rw [crossesBoundary_ok hy hye ho hx hable.absorbed,ok_bind,item_of_some hable.absorbed,
        ok_bind,vertexEdges_of_some hable.absorbed hable.listed]
      by_cases h3 : x.container = w.container
      · by_cases h4 : (!w.isAnnotated || w.isMarked) = true
        · exact ⟨[],by simp [h3,h4],none_listed⟩
        · by_cases h5 : edges'.length = 1
          · refine ⟨[⟨[v,e,u],[x.joinedName,y.joinedName,w.joinedName],none⟩],?_,fun a ha => ?_⟩
            · simp [h3,h4,h5,ofItems_three hx hy hable.absorbed]
            · cases List.mem_singleton.mp ha
              simp only [Bool.or_eq_true,not_or,Item.isMarked,Bool.not_eq_true,
                Bool.not_eq_true',Item.isAnnotated,Option.isSome_eq_false_iff,
                Option.isNone_iff_eq_none] at h4
              obtain ⟨bounds,hb⟩ := Option.ne_none_iff_exists'.mp h4.1
              -- The one edge of the annotated vertex is the edge in question.
              have hmem : e ∈ edges' := (h.incident.joined hable.absorbed
                hable.listed).mpr ⟨y,hy,ends,hye,hable.touches.1⟩
              obtain ⟨f,hf⟩ := List.length_eq_one_iff.mp h5
              rw [hf] at hmem
              cases List.mem_singleton.mp hmem
              rw [hf] at hable
              have hred : ∀ marker : Option Provenance, (marker = bounds.max.bind fun max =>
                  (ends.nameAmong? w.names).map fun name => ⟨w.joinedName,name,some max⟩) →
                  marker.isSome = bounds.max.isSome →
                  Reduces q absorbAnnotatedVertex
                    ⟨[v,e,u],[x.joinedName,y.joinedName,w.joinedName],none⟩ :=
                fun marker hm hs => ⟨_,_,.absorbAnnotatedVertex hable (isSettled_iff.mp h1) hb
                  h2.1.2 h2.2 h4.2 h3 hm hs⟩
              cases hmax : bounds.max with
              | none => exact .inl (hred _ rfl (by rw [hmax]; rfl))
              | some max =>
                cases hname : ends.nameAmong? w.names with
                | some name =>
                  exact .inl (hred _ rfl (by rw [hmax,Option.bind_some,hname]; rfl))
                | none =>
                  refine .inr ⟨⟨.state .edgeMissesAbsorbed,?_⟩,fun hq => ?_⟩
                  · change AbsorbAnnotatedVertex.apply q _ = _
                    simp only [AbsorbAnnotatedVertex.apply,Application.item,List.getElem?_cons_zero,
                      List.getElem?_cons_succ,except_pure,ok_bind,item_of_some hable.absorbed,
                      AbsorbAnnotatedVertex.marker,hb,Option.bind_some,hmax,item_of_some hy,hye,
                      hname]
                    rfl
                  · have hsome := hq.named hy hye ho h2.1.1 hable.absorbed hb
                      (by rw [hmax]; rfl)
                    rw [hname] at hsome
                    cases hsome
          · exact ⟨[],by simp [h3,h4,h5],none_listed⟩
      · exact ⟨[],by simp [h3],none_listed⟩

theorem applications_absorbAnnotatedVertex (hx : q.item? v = some x) (h1 : isSettled x = true)
    {edges : List ItemId} (he : x.edges? = some edges) {bss : List (List Application)}
    (hbss : edges.mapM (AbsorbAnnotatedVertex.alongEdge q v) = .ok bss) :
    absorbAnnotatedVertex.applications q v = .ok bss.flatten := by
  change AbsorbAnnotatedVertex.applications q v = _
  rw [AbsorbAnnotatedVertex.applications,item_of_some hx,ok_bind,h1]
  simp only [Bool.not_true,Bool.false_eq_true,if_false]
  rw [vertexEdges_of_some hx he,ok_bind,hbss]
  rfl

/-- What the rule lists is a reduction unless an edge names no name of the annotated vertex. -/
theorem tries_absorbAnnotatedVertex (h : q.WellFormed) (hx : q.item? v = some x)
    (hv : x.isVertex = true) : ∃ as, absorbAnnotatedVertex.applications q v = .ok as ∧
      ∀ a ∈ as, Reduces q absorbAnnotatedVertex a ∨
        ((∃ e, absorbAnnotatedVertex.apply q a = .error e) ∧ ¬q.Answerable) := by
  by_cases h1 : isSettled x = true
  · obtain ⟨edges,he⟩ := Item.isVertex_iff.mp hv
    obtain ⟨bss,hbss,hall⟩ := mapM_ok (f:=AbsorbAnnotatedVertex.alongEdge q v)
      (P:=fun _ as => ∀ a ∈ as, Reduces q absorbAnnotatedVertex a ∨
        ((∃ e, absorbAnnotatedVertex.apply q a = .error e) ∧ ¬q.Answerable)) (l:=edges)
      fun e hm => alongEdge_annotated h hx h1 hv he hm
    refine ⟨bss.flatten,applications_absorbAnnotatedVertex hx h1 he hbss,fun a ha => ?_⟩
    obtain ⟨as,has,ha⟩ := List.mem_flatten.mp ha
    obtain ⟨-,-,hr⟩ := exists_left hall has
    exact hr a ha
  · refine ⟨[],?_,none_listed⟩
    change AbsorbAnnotatedVertex.applications q v = _
    rw [AbsorbAnnotatedVertex.applications,item_of_some hx,ok_bind]
    simp [h1]

theorem lists_absorbAnnotatedVertex (h : q.Answerable) (hx : q.item? v = some x)
    (hv : x.isVertex = true) : Lists q v absorbAnnotatedVertex := by
  obtain ⟨as,has,hall⟩ := tries_absorbAnnotatedVertex h.wellFormed hx hv
  exact ⟨as,has,fun a ha => (hall a ha).resolve_right fun hnot => hnot.2 h⟩

/-- Every rule of the library answers, and lists nothing but reductions. -/
theorem lists_answerable (h : q.Answerable) (hx : q.item? v = some x) (hv : x.isVertex = true)
    {rule : Rule} (hr : rule ∈ builtIn) : Lists q v rule := by
  have hw := h.wellFormed
  simp only [builtIn,List.mem_cons,List.not_mem_nil,or_false] at hr
  rcases hr with rfl|rfl|rfl|rfl|rfl|rfl|rfl
  · exact lists_getVertex hw hx hv
  · exact lists_absorbSelfLoop hw hx hv
  · exact lists_collapseEdge hw hx hv
  · exact lists_absorbAnnotatedVertex h hx hv
  · exact lists_applyUpperLimit hx
  · exact lists_eliminateSubquery hw hx
  · exact lists_processConstraint h hx

/-- Plans can be made of a query only if every rule answers there. -/
theorem answerable_of_plannable (h : q.Plannable) : q.Answerable where
  wellFormed := h.wellFormed
  comparable := h.comparable
  named hy hye ho _ hw _ _ := by
    have ht := EdgeEnds.opposite?_eq_some ho
    exact nameAmong?_isSome h.toReducible hy hye hw (ht.elim (fun h => .inr h.2) fun h => .inl h.1)

/-- Every rule of the library answers where plans can be made, and lists nothing but reductions. -/
theorem lists_builtIn (h : q.Plannable) (hx : q.item? v = some x) (hv : x.isVertex = true)
    {rule : Rule} (hr : rule ∈ builtIn) : Lists q v rule :=
  lists_answerable (answerable_of_plannable h) hx hv hr

/-- Every rule of the library answers, and what it lists and carries out is a reduction. -/
theorem tries_builtIn (h : q.WellFormed) (hx : q.item? v = some x) (hv : x.isVertex = true)
    {rule : Rule} (hr : rule ∈ builtIn) : ∃ as, rule.applications q v = .ok as ∧
      ∀ a ∈ as, Reduces q rule a ∨ ∃ e, rule.apply q a = .error e := by
  have htries : Lists q v rule → ∃ as, rule.applications q v = .ok as ∧
      ∀ a ∈ as, Reduces q rule a ∨ ∃ e, rule.apply q a = .error e :=
    fun ⟨as,has,hall⟩ => ⟨as,has,fun a ha => .inl (hall a ha)⟩
  simp only [builtIn,List.mem_cons,List.not_mem_nil,or_false] at hr
  rcases hr with rfl|rfl|rfl|rfl|rfl|rfl|rfl
  · exact htries (lists_getVertex h hx hv)
  · exact htries (lists_absorbSelfLoop h hx hv)
  · exact htries (lists_collapseEdge h hx hv)
  · obtain ⟨as,has,hall⟩ := tries_absorbAnnotatedVertex h hx hv
    exact ⟨as,has,fun a ha => (hall a ha).imp id And.left⟩
  · exact htries (lists_applyUpperLimit hx)
  · exact htries (lists_eliminateSubquery h hx)
  · obtain ⟨as,has,hall⟩ := tries_processConstraint hx
    exact ⟨as,has,fun a ha => (hall a ha).imp id And.left⟩

end Rule

end GraphPattern
