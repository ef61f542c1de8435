import GraphPattern.Proofs.Matches.Reductions

/-!
# Assignments

A query without annotated subqueries asks for an object for each of its vertices without annotation.
What an assignment of such objects holds follows from it: the links of every edge, and the objects
of every annotated vertex that enough links join to the object of the vertex on which it hangs. The
assignments that satisfy the query are the answers to it.
-/

namespace GraphPattern

theorem Annotation.admits_iff {a : Annotation} {n : Nat} :
    a.admits n = true ↔ a.min.getD 0 ≤ n ∧ ∀ max, a.max = some max → n ≤ max := by
  rw [admits,Bool.and_eq_true,decide_eq_true_eq]
  cases a.max <;> simp

namespace Store

/-- The links that match an edge between an object at one of its ends and one at the other end. -/
def linksJoining (s : Store) (y : Item) (ends : EdgeEnds) (t : Bool) (o p : Int) : Set Int :=
  s.linksBetween y.condition ends.directed {if t then o else p} {if t then p else o}

/-- The links between some objects at one end of an edge and one at the other end. -/
theorem mem_linksJoining {s : Store} {y : Item} {ends : EdgeEnds} {t : Bool} {A : Set Int}
    {l p : Int} : l ∈ s.linksBetween y.condition ends.directed (if t then A else {p})
      (if t then {p} else A) ↔ ∃ o ∈ A, l ∈ s.linksJoining y ends t o p := by
  cases t with
  | true =>
    constructor
    · rintro ⟨link,hl,ha,⟨hA,hp⟩|⟨hd,hA,hp⟩⟩
      · exact ⟨_,hA,link,hl,ha,.inl ⟨rfl,hp⟩⟩
      · exact ⟨_,hA,link,hl,ha,.inr ⟨hd,rfl,hp⟩⟩
    · rintro ⟨o,hA,link,hl,ha,⟨rfl,hp⟩|⟨hd,rfl,hp⟩⟩
      · exact ⟨link,hl,ha,.inl ⟨hA,hp⟩⟩
      · exact ⟨link,hl,ha,.inr ⟨hd,hA,hp⟩⟩
  | false =>
    constructor
    · rintro ⟨link,hl,ha,⟨hp,hA⟩|⟨hd,hp,hA⟩⟩
      · exact ⟨_,hA,link,hl,ha,.inl ⟨hp,rfl⟩⟩
      · exact ⟨_,hA,link,hl,ha,.inr ⟨hd,hp,rfl⟩⟩
    · rintro ⟨o,hA,link,hl,ha,⟨hp,rfl⟩|⟨hd,hp,rfl⟩⟩
      · exact ⟨link,hl,ha,.inl ⟨hp,hA⟩⟩
      · exact ⟨link,hl,ha,.inr ⟨hd,hp,hA⟩⟩

end Store

namespace Query

/-- The names of all items. -/
def allNames (q : Query) : Set String := {n | ∃ i, n ∈ q.itemNames i}

/-- What fits all items and all constraints. -/
def answers (q : Query) (s : Store) : Set Binding := q.fitting s q.allDeclared none q.allNames

/-- An object for every vertex without annotation. -/
abbrev Assignment (q : Query) := {v // q.IsBare v} → Int

variable {q : Query} {s : Store} {f g : q.Assignment} {e v u i : ItemId} {t : Bool} {n : String}
  {x y : Item} {ends : EdgeEnds} {b : Binding} {o : Int}

/-- The objects of an annotated vertex: those that satisfy its condition and that as many links as
the edge allows join to the object of the vertex at its other end. -/
def instances (q : Query) (s : Store) (f : q.Assignment) (v : ItemId) : Set Int :=
  {o | ∃ x e y ends t u, ∃ hu : q.IsBare u, q.item? v = some x ∧ q.item? e = some y ∧
    y.ends? = some ends ∧ q.Ends e t v ∧ q.Ends e (!t) u ∧ o ∈ s.having x.condition ∧
      y.Permits (s.linksJoining y ends t o (f ⟨u,hu⟩))}

/-- The objects of a vertex. -/
def objectsAt (q : Query) (s : Store) (f : q.Assignment) (v : ItemId) : Set Int :=
  {o | (∃ hv : q.IsBare v, o = f ⟨v,hv⟩) ∨ (q.itemBounds v ≠ none ∧ o ∈ q.instances s f v)}

/-- The links of an edge: those that match it between the objects of the vertices at its ends. -/
def linksAt (q : Query) (s : Store) (f : q.Assignment) (e : ItemId) : Set Int :=
  {l | ∃ y ends v u, q.item? e = some y ∧ y.ends? = some ends ∧ q.Ends e true v ∧
    q.Ends e false u ∧
      l ∈ s.linksBetween y.condition ends.directed (q.objectsAt s f v) (q.objectsAt s f u)}

/-- What an assignment holds under the names of the items. -/
def holding (q : Query) (s : Store) (f : q.Assignment) : Binding
  | .object, n => {o | ∃ v, q.IsVertex v ∧ n ∈ q.itemNames v ∧ o ∈ q.objectsAt s f v}
  | .link, n => {l | ∃ e, n ∈ q.itemNames e ∧ l ∈ q.linksAt s f e}

/-- An assignment satisfies the query. -/
structure Satisfies (q : Query) (s : Store) (f : q.Assignment) : Prop where
  /-- An object satisfies the condition of its vertex. -/
  vertex : ∀ v x, q.item? v = some x → ∀ hv : q.IsBare v, f ⟨v,hv⟩ ∈ s.having x.condition
  /-- An edge between vertices without annotation has links, as many as it allows. -/
  edge : ∀ e y, q.item? e = some y → q.IsEdge e → (∀ t v, q.Ends e t v → q.IsBare v) →
    y.Permits (q.linksAt s f e)
  /-- An annotated vertex has as many objects as it allows. -/
  annotated : ∀ v a, q.IsVertex v → q.itemBounds v = some a →
    a.admits (q.instances s f v).ncard = true
  /-- The constraints are satisfied. -/
  constraint : ∀ k ∈ q.allDeclared, k.HoldsIn s (q.holding s f)

theorem objectsAt_bare (hv : q.IsBare v) : q.objectsAt s f v = {f ⟨v,hv⟩} := by
  ext o
  constructor
  · rintro (⟨_,rfl⟩|⟨hb,-⟩)
    · rfl
    · exact absurd hv.2 hb
  · rintro rfl
    exact .inl ⟨hv,rfl⟩

theorem objectsAt_annotated (hb : q.itemBounds v ≠ none) :
    q.objectsAt s f v = q.instances s f v := by
  ext o
  constructor
  · rintro (⟨hv,-⟩|⟨-,ho⟩)
    · exact absurd hv.2 hb
    · exact ho
  · exact fun ho => .inr ⟨hb,ho⟩

/-- The links of an edge are those between what its assignment holds at its ends. -/
theorem linksAt_eq (hy : q.item? e = some y) (he : y.ends? = some ends) (hv : q.Ends e true v)
    (hu : q.Ends e false u) : q.linksAt s f e =
      s.linksBetween y.condition ends.directed (q.objectsAt s f v) (q.objectsAt s f u) := by
  ext l
  constructor
  · rintro ⟨y',ends',v',u',hy',he',hv',hu',hl⟩
    rw [hy] at hy'
    cases hy'
    rw [he] at he'
    cases he'
    rwa [hv.unique hv',hu.unique hu']
  · exact fun hl => ⟨y,ends,v,u,hy,he,hv,hu,hl⟩

/-- The links of an edge at which a vertex hangs join it to the object at the other end. -/
theorem mem_linksAt (hy : q.item? e = some y) (he : y.ends? = some ends) (hv : q.Ends e t v)
    (hu : q.Ends e (!t) u) (hbare : q.IsBare u) {l : Int} : l ∈ q.linksAt s f e ↔
      ∃ o ∈ q.objectsAt s f v, l ∈ s.linksJoining y ends t o (f ⟨u,hbare⟩) := by
  rw [← Store.mem_linksJoining]
  cases t with
  | true => rw [linksAt_eq hy he hv hu,objectsAt_bare hbare]; rfl
  | false => rw [linksAt_eq hy he hu hv,objectsAt_bare hbare]; rfl

section WellFormed

variable (h : q.WellFormed)

include h

theorem holding_object (hv : q.IsVertex v) (hn : n ∈ q.itemNames v) :
    q.holding s f .object n = q.objectsAt s f v := by
  ext o
  constructor
  · rintro ⟨u,-,hnu,ho⟩
    rwa [h.eq_of_name hn hnu]
  · exact fun ho => ⟨v,hv,hn,ho⟩

theorem holding_link (hn : n ∈ q.itemNames e) : q.holding s f .link n = q.linksAt s f e := by
  ext l
  constructor
  · rintro ⟨e',hne,hl⟩
    rwa [h.eq_of_name hn hne]
  · exact fun hl => ⟨e,hn,hl⟩

/-- No object is held under the name of an edge. -/
theorem holding_object_edge (he : q.IsEdge e) (hn : n ∈ q.itemNames e) :
    q.holding s f .object n = ∅ := by
  refine Set.eq_empty_of_forall_notMem ?_
  rintro o ⟨v,hv,hnv,-⟩
  exact h.not_mem_itemNames he hv hn hnv

/-- No link is held under the name of a vertex. -/
theorem holding_link_vertex (hv : q.IsVertex v) (hn : n ∈ q.itemNames v) :
    q.holding s f .link n = ∅ := by
  refine Set.eq_empty_of_forall_notMem ?_
  rintro l ⟨e,hne,y,ends,-,-,hy,he,-⟩
  exact h.not_mem_itemNames (isEdge_iff.mpr ⟨y,ends,hy,he⟩) hv hne hn

/-- Assignments that hold the same are the same. -/
theorem holding_injective : Function.Injective (q.holding s) := by
  rintro f g hfg
  funext ⟨v,hv⟩
  obtain ⟨x,hx,-⟩ := id hv.1
  obtain ⟨n,hn⟩ := h.exists_name hx
  have hobjects := congrFun (congrFun hfg .object) n
  rw [holding_object h hv.1 hn,holding_object h hv.1 hn,objectsAt_bare hv,objectsAt_bare hv] at hobjects
  exact Set.singleton_injective hobjects

omit h in
theorem holding_within : (q.holding s f).Within q.allNames := by
  rintro (_|_) n ⟨o,ho⟩
  · obtain ⟨v,-,hn,-⟩ := ho
    exact ⟨v,hn⟩
  · obtain ⟨e,hn,-⟩ := ho
    exact ⟨e,hn⟩

end WellFormed

/-! ## Queries without annotated subqueries -/

/-- No subquery is annotated. -/
def Unbounded (q : Query) : Prop := ∀ c, q.subqueryBounds c = none

section Unbounded

variable (h : q.Definite) (hq : q.Unbounded) {N : Set String}

section Visible

include hq

/-- An annotated vertex hangs at the edge that ends there. -/
theorem leads_of_annotated (hv : q.Ends e t v) (hb : q.itemBounds v ≠ none) :
    q.Leads e t (.vertex v) := .vertex hv hb fun c _ => hq c

/-- Nothing is hidden. -/
theorem not_hidden_of_unbounded : ¬q.Hidden N i := by
  rintro ⟨c,hc,-⟩
  exact hc (hq c)

/-- No constraint is out of sight. -/
theorem not_conceals_of_unbounded {k : Constraint} : ¬q.Conceals N k := by
  rintro ⟨c,hc,-⟩
  exact hc (hq c)

end Visible

include h hq

/-- What hangs at an edge is a vertex, and the vertex at the other end is not annotated. -/
theorem Leads.vertex_of {l : Limb} (hl : q.Leads e t l) : ∃ v u, l = .vertex v ∧ q.Ends e t v ∧
    q.Ends e (!t) u ∧ q.itemBounds v ≠ none ∧ q.IsBare u := by
  have hat := (h.orderly.annotatedAt_iff h.regular.closed).mpr ⟨l,hl⟩
  cases hl with
  | subquery _ hb => exact absurd (hq _) hb
  | @vertex v hv hb _ =>
    obtain ⟨u,hu⟩ := h.regular.closed hv.isEdge (!t)
    refine ⟨v,u,rfl,hv,hu,hb,hu.isVertex h.regular.wellFormed,by_contra fun hbu => ?_⟩
    obtain ⟨v',u',hv',hu',hne,-⟩ := id hat
    refine h.orderly.oneSided hat ⟨u,v,hu,by rwa [Bool.not_not],?_,.inl hbu⟩
    rw [hu.unique hu',hv.unique hv']
    exact hne.symm

/-- Where no end is annotated, nothing hangs. -/
theorem not_leads_of_bare (hbare : ∀ t v, q.Ends e t v → q.IsBare v) (t : Bool) (l : Limb) :
    ¬q.Leads e t l := by
  intro hl
  obtain ⟨v,-,-,hv,-,hb,-⟩ := hl.vertex_of h hq
  exact hb (hbare t v hv).2

/-- The objects of an annotated vertex, seen from the edge by which it hangs. -/
theorem instances_eq (hx : q.item? v = some x) (hb : q.itemBounds v ≠ none) (hy : q.item? e = some y)
    (he : y.ends? = some ends) (hv : q.Ends e t v) (hu : q.Ends e (!t) u) (hbare : q.IsBare u) :
    q.instances s f v = {o | o ∈ s.having x.condition ∧
      y.Permits (s.linksJoining y ends t o (f ⟨u,hbare⟩))} := by
  have hat : ∀ {e' t'}, q.Ends e' t' v → q.AnnotatedAt e' t' := fun hv =>
    (h.orderly.annotatedAt_iff h.regular.closed).mpr ⟨_,leads_of_annotated hq hv hb⟩
  ext o
  constructor
  · rintro ⟨x',e',y',ends',t',u',hu',hx',hy',he',hv',hend',ho,hp⟩
    rw [hx] at hx'
    cases hx'
    obtain rfl := h.orderly.single (hat hv) (hat hv') hv hv'
    rw [hy] at hy'
    cases hy'
    rw [he] at he'
    cases he'
    rcases Rule.eq_or_opposite t t' with rfl|rfl
    · obtain rfl := hu.unique hend'
      exact ⟨ho,hp⟩
    · rw [Bool.not_not] at hu
      obtain rfl := hu.unique hv'
      exact absurd hbare.2 hb
  · rintro ⟨ho,hp⟩
    exact ⟨x,e,y,ends,t,u,hbare,hx,hy,he,hv,hu,ho,hp⟩

end Unbounded

/-! ## What hangs at an edge -/

section Hanging

variable {G : ContainerId → Set Binding} {p : Int} (hx : q.item? v = some x)
  (hfar : ends.nameAt t = x.joinedName) (hnear : b .object (ends.nameAt (!t)) = {p})

include hx hfar hnear

omit hx hfar in
/-- A binding with one object at the near end is joined as that object is. -/
theorem linksTo_eq (o : Int) : s.linksTo y ends t b o = s.linksJoining y ends t o p := by
  cases t with
  | true =>
    change b .object ends.targetName = _ at hnear
    simp only [Store.linksTo,Store.linksJoining,if_true,hnear]
  | false =>
    change b .object ends.sourceName = _ at hnear
    simp only [Store.linksTo,Store.linksJoining,Bool.false_eq_true,if_false,hnear]

omit hx hfar in
theorem instancesAt_eq : s.instancesAt y ends t x.condition b =
    {o | o ∈ s.having x.condition ∧ y.Permits (s.linksJoining y ends t o p)} := by
  simp only [Store.instancesAt,linksTo_eq hnear]

omit hfar hnear in
theorem bindings_vertex : (Limb.vertex v).bindings q s G =
    {c | ∃ o ∈ s.having x.condition, c = .of .object x.joinedName {o}} := by
  ext d
  constructor
  · rintro ⟨x',hx',hd⟩
    rw [hx] at hx'
    cases hx'
    exact hd
  · exact fun hd => ⟨x,hx,hd⟩

/-- The objects that hang at an edge. -/
theorem hanging_vertex : s.hanging y ends t ((Limb.vertex v).bindings q s G) b =
    (fun o => Binding.of .object x.joinedName {o}) ''
      {o | o ∈ s.having x.condition ∧ y.Permits (s.linksJoining y ends t o p)} := by
  rw [bindings_vertex hx,Store.hanging_objects hfar,instancesAt_eq hnear]

/-- They and their links, together. -/
theorem gathered_vertex : s.gathered y ends t ((Limb.vertex v).bindings q s G) b =
    .of .object x.joinedName
        {o | o ∈ s.having x.condition ∧ y.Permits (s.linksJoining y ends t o p)} ⊔
      .of .link y.joinedName {l | ∃ o, (o ∈ s.having x.condition ∧
        y.Permits (s.linksJoining y ends t o p)) ∧ l ∈ s.linksJoining y ends t o p} := by
  rw [bindings_vertex hx,Store.gathered_objects hfar,instancesAt_eq hnear]
  simp only [linksTo_eq hnear]
  rfl

end Hanging

/-! ## Answers -/

section Answers

variable (h : q.Definite) (hq : q.Unbounded) {G : ContainerId → Set Binding}

include h

/-- Under the name that is written for an end of an edge stand the objects of the vertex there. -/
theorem holding_nameAt (hy : q.item? e = some y) (he : y.ends? = some ends) (hv : q.Ends e t v) :
    q.holding s f .object (ends.nameAt t) = q.objectsAt s f v :=
  holding_object h.regular.wellFormed (hv.isVertex h.regular.wellFormed)
    (h.written.reducible.nameAt hy he hv)

/-- Under the name of a vertex without annotation its object is held, and nothing else. -/
theorem holding_bare (hv : q.IsBare v) (hx : q.item? v = some x) (kind : SourceKind) :
    q.holding s f kind x.joinedName =
      Binding.of .object x.joinedName {f ⟨v,hv⟩} kind x.joinedName := by
  have hn := (h.written.mem_itemNames hx).mpr rfl
  cases kind with
  | object => rw [holding_object h.regular.wellFormed hv.1 hn,objectsAt_bare hv,Binding.of_self]
  | link =>
    rw [holding_link_vertex h.regular.wellFormed hv.1 hn]
    exact (Binding.of_other (by decide)).symm

/-- Under the name of an edge its links are held, and nothing else. -/
theorem holding_edge (he : q.IsEdge e) (hy : q.item? e = some y) (kind : SourceKind) :
    q.holding s f kind y.joinedName =
      Binding.of .link y.joinedName (q.linksAt s f e) kind y.joinedName := by
  have hn := (h.written.mem_itemNames hy).mpr rfl
  cases kind with
  | object =>
    rw [holding_object_edge h.regular.wellFormed he hn]
    exact (Binding.of_other (by decide)).symm
  | link => rw [holding_link h.regular.wellFormed hn,Binding.of_self]

/-- The links of an edge are those between what is held under the names of its ends. -/
theorem linksOf_holding (hy : q.item? e = some y) (he : y.ends? = some ends) :
    s.linksOf y ends (q.holding s f) = q.linksAt s f e := by
  have hedge := isEdge_iff.mpr ⟨y,ends,hy,he⟩
  obtain ⟨v,hv⟩ := h.regular.closed hedge true
  obtain ⟨u,hu⟩ := h.regular.closed hedge false
  rw [linksAt_eq hy he hv hu,← holding_nameAt h hy he hv,← holding_nameAt h hy he hu]
  rfl

include hq

/-- At an end of an edge an annotated vertex hangs, or at neither end there is one. -/
theorem bare_or_leads (e : ItemId) :
    (∀ t v, q.Ends e t v → q.IsBare v) ∨ ∃ t v, q.Leads e t (.vertex v) := by
  by_cases hb : ∃ t v, q.Ends e t v ∧ q.itemBounds v ≠ none
  · obtain ⟨t,v,hv,hb⟩ := hb
    exact .inr ⟨t,v,leads_of_annotated hq hv hb⟩
  · exact .inl fun t v hv => ⟨hv.isVertex h.regular.wellFormed,by_contra fun hne => hb ⟨t,v,hv,hne⟩⟩

section Leads

variable (hx : q.item? v = some x) (hy : q.item? e = some y) (he : y.ends? = some ends)
  (hl : q.Leads e t (.vertex v)) (hu : q.Ends e (!t) u) (hbare : q.IsBare u)
  (hnear : b .object (ends.nameAt (!t)) = {f ⟨u,hbare⟩})

include hx hy he hl hu hnear

/-- What hangs at an edge are the objects of the vertex there. -/
theorem hanging_eq : s.hanging y ends t ((Limb.vertex v).bindings q s G) b =
    (fun o => Binding.of .object x.joinedName {o}) '' q.instances s f v := by
  obtain ⟨_,_,⟨⟩,hv,-,hb,-⟩ := hl.vertex_of h hq
  have hfar := (h.written.mem_itemNames hx).mp (h.written.reducible.nameAt hy he hv)
  rw [hanging_vertex hx hfar hnear,instances_eq h hq hx hb hy he hv hu hbare]

/-- There are as many. -/
theorem ncard_hanging : (s.hanging y ends t ((Limb.vertex v).bindings q s G) b).ncard =
    (q.instances s f v).ncard := by
  rw [hanging_eq h hq hx hy he hl hu hbare hnear]
  exact Set.ncard_image_of_injective _ Binding.of_singleton_injective

/-- They and their links are what an assignment holds there. -/
theorem gathered_agrees : (s.gathered y ends t ((Limb.vertex v).bindings q s G) b).Agrees
    (q.holding s f) ((Limb.vertex v).names q ∪ {y.joinedName}) := by
  have hw := h.regular.wellFormed
  obtain ⟨_,_,⟨⟩,hv,-,hb,-⟩ := hl.vertex_of h hq
  have hedge := isEdge_iff.mpr ⟨y,ends,hy,he⟩
  have hvertex := hv.isVertex hw
  have hxn := (h.written.mem_itemNames hx).mpr rfl
  have hyn := (h.written.mem_itemNames hy).mpr rfl
  have hxy : x.joinedName ≠ y.joinedName := fun hxy =>
    hw.not_mem_itemNames hedge hvertex hyn (hxy ▸ hxn)
  have hinstances := instances_eq (s:=s) (f:=f) h hq hx hb hy he hv hu hbare
  have hobjects := (objectsAt_annotated (s:=s) (f:=f) hb).trans hinstances
  rw [gathered_vertex hx ((h.written.mem_itemNames hx).mp (h.written.reducible.nameAt hy he hv)) hnear]
  rintro kind n (⟨_,⟨rfl,-⟩,hn⟩|rfl)
  · obtain rfl := (h.written.mem_itemNames hx).mp hn
    rw [Binding.sup_apply,Binding.of_ne hxy,Set.union_empty]
    cases kind with
    | object => rw [holding_object hw hvertex hxn,hobjects,Binding.of_self]
    | link =>
      rw [holding_link_vertex hw hvertex hxn]
      exact Binding.of_other (by decide)
  · rw [Binding.sup_apply,Binding.of_ne hxy.symm,Set.empty_union]
    cases kind with
    | object =>
      rw [holding_object_edge hw hedge hyn]
      exact Binding.of_other (by decide)
    | link =>
      rw [holding_link hw hyn,Binding.of_self]
      ext l
      rw [mem_linksAt hy he hv hu hbare,hobjects]
      exact Iff.rfl

end Leads

/-- Every item admits an answer. -/
theorem meets_of_answer (hb : b ∈ q.answers s) (hx : q.item? i = some x) :
    q.Meets s (q.enclosed s) none i b := by
  obtain ⟨n,hn⟩ := h.regular.wellFormed.exists_name hx
  exact hb.item i ⟨n,hn,i,hn⟩ (not_hidden_of_unbounded hq)

/-- What is an answer is held by an assignment. -/
theorem exists_holding (hb : b ∈ q.answers s) : ∃ f, b = q.holding s f := by
  have hw := h.regular.wellFormed
  have hchoice : ∀ v : {v // q.IsBare v}, ∃ o, ∀ x, q.item? v = some x →
      b.Agrees (.of .object x.joinedName {o}) {x.joinedName} := by
    rintro ⟨v,⟨x,hx,hv⟩,hbounds⟩
    rw [itemBounds_of_some hx] at hbounds
    obtain ⟨o,-,hag⟩ := (meets_of_answer h hq hb hx).vertex x hx hv hbounds
    refine ⟨o,fun x' hx' => ?_⟩
    rw [hx] at hx'
    cases hx'
    exact hag
  choose f hf using hchoice
  -- Under the name of a vertex without annotation it holds the object that is chosen.
  have hat : ∀ {v} (hv : q.IsBare v) {n}, n ∈ q.itemNames v → ∀ kind,
      b kind n = q.holding s f kind n := fun {v} hv {n} hn kind => by
    obtain ⟨x,hx,-⟩ := id hv.1
    obtain rfl := (h.written.mem_itemNames hx).mp hn
    rw [hf ⟨v,hv⟩ x hx kind _ rfl,holding_bare h hv hx]
  have hnear : ∀ {e t v y ends}, q.item? e = some y → y.ends? = some ends → q.Ends e t v →
      ∀ hv : q.IsBare v, b .object (ends.nameAt t) = {f ⟨v,hv⟩} := fun hy he hend hv => by
    rw [hat hv (h.written.reducible.nameAt hy he hend),holding_nameAt h hy he hend,objectsAt_bare hv]
  have hleads : ∀ {e t v y}, q.Leads e t (.vertex v) → q.item? e = some y →
      b.Agrees (q.holding s f) ((Limb.vertex v).names q ∪ {y.joinedName}) := fun {e t v y} hl hy => by
    obtain ⟨_,u,⟨⟩,hv,hu,hbounds,hbare⟩ := hl.vertex_of h hq
    obtain ⟨x,hx,-⟩ := hv.isVertex hw
    obtain ⟨y',ends,hy',he,-⟩ := id hv
    rw [hy] at hy'
    cases hy'
    obtain ⟨a,ha⟩ := Option.ne_none_iff_exists'.mp hbounds
    intro kind n hn
    rw [((meets_of_answer h hq hb hy).limb y ends t _ a hy he hl ha).held kind n hn]
    exact gathered_agrees h hq hx hy he hl hu hbare (hnear hy he hu hbare) kind n hn
  refine ⟨f,funext fun kind => funext fun n => ?_⟩
  by_cases hn : n ∈ q.allNames
  swap
  · rw [hb.within.eq_empty hn,(holding_within (s:=s) (f:=f)).eq_empty hn]
  obtain ⟨i,hn⟩ := hn
  obtain ⟨x,hx,-⟩ := mem_itemNames.mp hn
  by_cases hv : x.isVertex = true
  · have hv : q.IsVertex i := ⟨x,hx,hv⟩
    by_cases hbounds : q.itemBounds i = none
    · exact hat ⟨hv,hbounds⟩ hn kind
    · obtain ⟨e,t,u,he,-,-⟩ := h.orderly.hung hv hbounds
      obtain ⟨y,ends,hy,-⟩ := id he
      exact hleads (leads_of_annotated hq he hbounds) hy kind n (.inl ⟨i,⟨rfl,hv⟩,hn⟩)
  · have hedge : q.IsEdge i := ⟨x,hx,Bool.eq_false_of_not_eq_true hv⟩
    obtain ⟨y,ends,hy,he⟩ := isEdge_iff.mp hedge
    obtain rfl := (h.written.mem_itemNames hy).mp hn
    rcases bare_or_leads h hq i with hbare|⟨t,v,hl⟩
    · rw [((meets_of_answer h hq hb hy).edge y ends hy he (not_leads_of_bare h hq hbare)).1 kind _ rfl]
      have hlinks : s.linksOf y ends b = q.linksAt s f i := by
        rw [← linksOf_holding h hy he]
        refine Store.linksOf_congr fun t => ?_
        obtain ⟨v,hv⟩ := h.regular.closed hedge t
        rw [hnear hy he hv (hbare t v hv),holding_nameAt h hy he hv,objectsAt_bare (hbare t v hv)]
      rw [hlinks,holding_edge h hedge hy]
    · exact hleads hl hy kind _ (.inr rfl)

/-- An assignment whose holding is an answer satisfies the query. -/
theorem satisfies_of_holding (hknown : ∀ k ∈ q.allDeclared, ∀ n ∈ k.itemNames, n ∈ q.allNames)
    (hb : q.holding s f ∈ q.answers s) : q.Satisfies s f where
  vertex v x hx hv := by
    have hw := h.regular.wellFormed
    obtain ⟨x',hx',hvertex⟩ := id hv.1
    rw [hx] at hx'
    cases hx'
    obtain ⟨o,ho,hag⟩ := (meets_of_answer h hq hb hx).vertex x hx hvertex
      ((itemBounds_of_some hx).symm.trans hv.2)
    have hobjects := hag .object _ rfl
    rw [holding_bare h hv hx,Binding.of_self,Binding.of_self] at hobjects
    exact Set.singleton_injective hobjects ▸ ho
  edge e y hy he hbare := by
    obtain ⟨y',ends,hy',hends⟩ := isEdge_iff.mp he
    rw [hy] at hy'
    cases hy'
    rw [← linksOf_holding h hy hends]
    exact ((meets_of_answer h hq hb hy).edge y ends hy hends (not_leads_of_bare h hq hbare)).2
  annotated v a hv ha := by
    have hbounds : q.itemBounds v ≠ none := by
      rw [ha]
      exact Option.some_ne_none a
    obtain ⟨e,t,u,hend,hu,-⟩ := h.orderly.hung hv hbounds
    obtain ⟨x,hx,-⟩ := id hv
    obtain ⟨y,ends,hy,he,-⟩ := id hend
    have hl := leads_of_annotated hq hend hbounds
    obtain ⟨_,u',⟨⟩,-,hu',-,hbare⟩ := hl.vertex_of h hq
    obtain rfl := hu.unique hu'
    have hg := (meets_of_answer h hq hb hy).limb y ends t _ a hy he hl ha
    have hnear := (holding_nameAt (s:=s) (f:=f) h hy he hu).trans (objectsAt_bare hbare)
    have henough := hg.enough
    rw [ncard_hanging h hq hx hy he hl hu hbare hnear] at henough
    have hfew := hg.few (Option.some_ne_none _).symm
    rw [holding_nameAt h hy he hend,objectsAt_annotated hbounds] at hfew
    exact Annotation.admits_iff.mpr ⟨henough,hfew⟩
  constraint k hk := hb.constraint k hk (hknown k hk) (not_conceals_of_unbounded hq)

/-- What an assignment that satisfies the query holds is an answer. -/
theorem Satisfies.answer (hf : q.Satisfies s f) : q.holding s f ∈ q.answers s where
  within := holding_within
  item i hi _ := by
    have hw := h.regular.wellFormed
    obtain ⟨n,hn,-⟩ := hi
    obtain ⟨x,hx,-⟩ := mem_itemNames.mp hn
    by_cases hv : x.isVertex = true
    · refine meets_of_vertex hx hv fun hbounds => ?_
      have hbare : q.IsBare i := ⟨⟨x,hx,hv⟩,(itemBounds_of_some hx).trans hbounds⟩
      refine ⟨f ⟨i,hbare⟩,hf.vertex i x hx hbare,fun kind n hn => ?_⟩
      obtain rfl := Set.mem_singleton_iff.mp hn
      exact holding_bare h hbare hx kind
    · have hedge : q.IsEdge i := ⟨x,hx,Bool.eq_false_of_not_eq_true hv⟩
      obtain ⟨y,ends,hy,he⟩ := isEdge_iff.mp hedge
      rcases bare_or_leads h hq i with hbare|⟨t,v,hl⟩
      · refine meets_of_edge hy he (not_leads_of_bare h hq hbare) (fun kind n hn => ?_) ?_
        · obtain rfl := Set.mem_singleton_iff.mp hn
          rw [holding_edge h hedge hy,linksOf_holding h hy he]
        · rw [linksOf_holding h hy he]
          exact hf.edge i y hy hedge hbare
      · obtain ⟨_,u,⟨⟩,hend,hu,hbounds,hbare⟩ := hl.vertex_of h hq
        obtain ⟨x,hx,-⟩ := hend.isVertex hw
        obtain ⟨a,ha⟩ := Option.ne_none_iff_exists'.mp hbounds
        have hnear := (holding_nameAt (s:=s) (f:=f) h hy he hu).trans (objectsAt_bare hbare)
        obtain ⟨henough,hfew⟩ := Annotation.admits_iff.mp (hf.annotated v a (hend.isVertex hw) ha)
        refine meets_of_limb h.orderly h.regular.closed hy he hl ha ⟨?_,fun _ => ?_,?_⟩
        · rwa [ncard_hanging h hq hx hy he hl hu hbare hnear]
        · rwa [holding_nameAt h hy he hend,objectsAt_annotated hbounds]
        · exact (gathered_agrees h hq hx hy he hl hu hbare hnear).symm
  constraint k hk _ _ := hf.constraint k hk

/-- The answers are what the assignments that satisfy the query hold. -/
theorem bijOn_holding (hknown : ∀ k ∈ q.allDeclared, ∀ n ∈ k.itemNames, n ∈ q.allNames) :
    Set.BijOn (q.holding s) {f | q.Satisfies s f} (q.answers s) := by
  refine ⟨fun f hf => hf.answer h hq,(holding_injective h.regular.wellFormed).injOn,fun b hb => ?_⟩
  obtain ⟨f,rfl⟩ := exists_holding h hq hb
  exact ⟨f,satisfies_of_holding h hq hknown hb,rfl⟩

end Answers

end Query

end GraphPattern
