import GraphPattern.Proofs.Rule.Parts
import GraphPattern.Proofs.Validation.Prune

/-!
# The rules of a query

Every rule that a walk checks is said here of the ends, the owners, the annotations and the names
alone, and a visit shows no violation exactly if what it comes upon keeps its rules.
-/

namespace GraphPattern

/-- The operator of a test is known, and there is a constant unless it asks for presence. -/
def AttributeTest.Meaningful (t : AttributeTest) : Prop :=
  ∃ op, t.comparison? = some op ∧ (t.value = none ↔ op = .present)

namespace Query

open Step

variable {q : Query} {c : ContainerId} {C : Container} {e i j u v : ItemId} {x y : Item} {n : String}

/-! ## What the rules are about -/

/-- The item is annotated. -/
def Annotated (q : Query) (i : ItemId) : Prop := q.itemBounds i ≠ none

/-- The item may be absent by its own annotation. -/
def IsNegated (q : Query) (i : ItemId) : Prop := (q.itemBounds i).any Annotation.isNegated = true

/-- The item lies in an annotated subquery. -/
def InAnnotated (q : Query) (i : ItemId) : Prop :=
  ∃ c, q.itemOwner i = some c ∧ q.subqueryBounds c ≠ none

/-- The tests in the condition of an item. -/
def itemTests (q : Query) (i : ItemId) : List AttributeTest :=
  ((q.item? i).bind Item.condition).elim [] Condition.tests

/-- An edge leads from a vertex of a container to a vertex that is not in it. -/
def LeadsOut (q : Query) (c : ContainerId) (v u : ItemId) : Prop :=
  ∃ e s, q.Ends e s v ∧ q.Ends e (!s) u ∧ q.itemOwner v = some c ∧ q.itemOwner u ≠ some c

/-- What is asked of an edge and the vertices at its ends. -/
structure JoinsWell (q : Query) (e v u : ItemId) : Prop where
  /-- One end at most is annotated, so no loop is at an annotated vertex. -/
  annotatedEnds : ¬(q.Annotated v ∧ q.Annotated u)
  /-- No two annotated subqueries are joined. -/
  annotatedSubqueries : q.itemOwner v ≠ q.itemOwner u → ¬(q.InAnnotated v ∧ q.InAnnotated u)
  /-- The edge is annotated if one of its ends is, or if they lie in different containers. -/
  annotated : q.Annotated v ∨ q.Annotated u ∨ q.itemOwner v ≠ q.itemOwner u → q.Annotated e
  /-- The edge lies in the container of one of its ends. -/
  beside : q.itemOwner e = q.itemOwner v ∨ q.itemOwner e = q.itemOwner u
  /-- The edge may not be absent. -/
  certain : ¬q.IsNegated e

/-- Both ends of an edge are known, and it joins them as it should. -/
def KeepsEdge (q : Query) (e : ItemId) : Prop :=
  ∃ v u, q.Ends e true v ∧ q.Ends e false u ∧ q.JoinsWell e v u

/-- One item may be absent that a constraint can be about: a vertex, or an annotated edge at such a
vertex. -/
def Excused (q : Query) (i : ItemId) : Prop :=
  (q.IsVertex i ∧ q.IsNegated i) ∨ (q.Annotated i ∧ ∃ s v, q.Ends i s v ∧ q.IsNegated v)

/-- What is asked of two items that a constraint relates. -/
structure Relatable (q : Query) (i j : ItemId) : Prop where
  /-- Both are vertices, or both are edges. -/
  alike : q.IsEdge i ↔ q.IsEdge j
  /-- One of them at most is annotated. -/
  annotated : ¬(q.Annotated i ∧ q.Annotated j)
  /-- If one is annotated, the other one does not lie in an annotated subquery. -/
  inside : ¬(q.Annotated i ∧ q.InAnnotated j) ∧ ¬(q.Annotated j ∧ q.InAnnotated i)
  /-- In different containers, one of them may be absent. -/
  apart : q.itemOwner i ≠ q.itemOwner j → q.Excused i ∨ q.Excused j

/-- What is asked of a constraint. -/
structure KeepsConstraint (q : Query) (k : Constraint) : Prop where
  /-- Its operator relates two values. -/
  operator : ∃ op, Comparison.ofKeyword? k.operator = some op ∧ op.isBinary = true
  /-- It does not compare an attribute with an identity. -/
  operands : ∀ {n m a b}, k.left = .item n a → k.right = .item m b → (a = none ↔ b = none)
  /-- It is about items of the query. -/
  known : ∀ n ∈ k.itemNames, ∃ i, q.itemNames i = [n]
  /-- If it relates two items, it may. -/
  related : ∀ {n m i j}, k.itemNames = [n,m] → q.itemNames i = [n] → q.itemNames j = [m] →
    q.Relatable i j

/-- What is asked of a container that a walk enters. -/
structure KeepsContainer (q : Query) (c : ContainerId) : Prop where
  /-- There is a vertex in it. -/
  inhabited : ∃ v, q.IsVertex v ∧ q.itemOwner v = some c
  /-- It is the root, or directly inside the root. -/
  flat : ∀ {p}, q.Holds p c → p = .root
  /-- No edge leads out of a subquery from an annotated vertex. -/
  inner : c ≠ .root → ∀ {v u}, q.LeadsOut c v u → ¬q.Annotated v
  /-- No edge leads out of an annotated subquery to an annotated vertex. -/
  outer : q.subqueryBounds c ≠ none → ∀ {v u}, q.LeadsOut c v u → ¬q.Annotated u

/-! ## Tests -/

theorem testViolations_iff {t : AttributeTest} : testViolations t = [] ↔ t.Meaningful := by
  rw [testViolations,AttributeTest.Meaningful]
  cases t.comparison? with
  | none => simp
  | some op => cases op <;> cases t.value <;> simp

theorem itemTests_of_some (hx : q.item? i = some x) :
    q.itemTests i = x.condition.elim [] Condition.tests := by
  rw [itemTests,hx,Option.bind_some]

/-- A well named item keeps its rules if its tests do. -/
theorem itemViolations_iff (h : q.WellFormed) (hx : q.item? i = some x) :
    itemViolations x = [] ↔ ∀ t ∈ q.itemTests i, t.Meaningful := by
  have hname : x.hasName "" = false := by
    rw [Item.hasName,decide_eq_false_iff_not]
    exact (h.named.named hx).proper
  rw [itemViolations,hname,itemTests_of_some hx]
  simp only [Bool.false_eq_true,if_false,List.nil_append,List.flatMap_eq_nil_iff,testViolations_iff]

/-! ## Edges -/

theorem breach_iff {P : Prop} [Decidable P] {violation : Violation} :
    (if P then [violation] else []) = [] ↔ ¬P := by
  by_cases h : P <;> simp [h]

theorem isAnnotated_iff (hx : q.item? i = some x) : x.isAnnotated = true ↔ q.Annotated i := by
  rw [Annotated,itemBounds_of_some hx,Item.isAnnotated,← Option.isSome_iff_ne_none]

theorem isNegated_iff (hx : q.item? i = some x) : x.isNegated = true ↔ q.IsNegated i := by
  rw [IsNegated,itemBounds_of_some hx,Item.isNegated]

theorem inAnnotatedSubquery_iff (hx : q.item? i = some x) :
    q.inAnnotatedSubquery x = true ↔ q.InAnnotated i := by
  rw [inAnnotatedSubquery,InAnnotated,itemOwner_of_some hx]
  cases x.container with
  | none => simp
  | some c => cases hC : q.container? c <;> simp [subqueryBounds,hC,Option.isSome_iff_ne_none]

/-- The vertices at the ends of an edge, if both are known. -/
def pair? (q : Query) (e : ItemId) : Option (ItemId × ItemId) :=
  ((q.item? e).bind Item.ends?).bind EdgeEnds.both?

theorem pair?_eq_some : q.pair? e = some (v,u) ↔ q.Ends e true v ∧ q.Ends e false u := by
  constructor
  · intro h
    obtain ⟨ends,he,hb⟩ := Option.bind_eq_some_iff.mp h
    obtain ⟨y,hy,he⟩ := Option.bind_eq_some_iff.mp he
    obtain ⟨hs,ht⟩ := EdgeEnds.both?_eq_some.mp hb
    exact ⟨⟨y,ends,hy,he,hs⟩,y,ends,hy,he,ht⟩
  · rintro ⟨⟨y,ends,hy,he,hs⟩,hu⟩
    obtain ⟨y',ends',hy',he',ht⟩ := hu
    rw [hy] at hy'
    cases hy'
    rw [he] at he'
    cases he'
    rw [pair?,hy,Option.bind_some,he,Option.bind_some]
    exact EdgeEnds.both?_eq_some.mpr ⟨hs,ht⟩

theorem crosses_iff {w : Item} (hp : q.pair? e = some (v,u)) (hv : q.item? v = some x)
    (hu : q.item? u = some w) : q.crosses e = true ↔ q.itemOwner v ≠ q.itemOwner u := by
  obtain ⟨ends,he,hb⟩ := Option.bind_eq_some_iff.mp hp
  obtain ⟨y,hy,he⟩ := Option.bind_eq_some_iff.mp he
  have hcross : q.crossesBoundary e = .ok (decide (x.container ≠ w.container)) := by
    rw [crossesBoundary,edgeEnds_of_some hy he,ok_bind,hb]
    simp only [hv,hu]
    rfl
  rw [crosses,hcross,itemOwner_of_some hv,itemOwner_of_some hu]
  exact decide_eq_true_iff

/-- An edge with known ends keeps its rules if it joins them as it should. -/
theorem joinViolations_iff {w : Item} (hp : q.pair? e = some (v,u)) (hy : q.item? e = some y)
    (hx : q.item? v = some x) (hw : q.item? u = some w) :
    q.joinViolations e y x w = [] ↔ q.JoinsWell e v u := by
  rw [joinViolations]
  simp only [List.append_eq_nil_iff,breach_iff,Bool.and_eq_true,Bool.or_eq_true,Bool.not_eq_true',
    ← Bool.not_eq_true,isAnnotated_iff hx,isAnnotated_iff hw,isAnnotated_iff hy,
    inAnnotatedSubquery_iff hx,inAnnotatedSubquery_iff hw,crosses_iff hp hx hw,isNegated_iff hy,
    decide_eq_true_eq,← itemOwner_of_some hx,← itemOwner_of_some hw,← itemOwner_of_some hy]
  constructor
  · rintro ⟨⟨⟨⟨⟨hends,hsubqueries⟩,htouches⟩,hcrosses⟩,hstray⟩,hcertain⟩
    refine ⟨hends,fun ho hin => hsubqueries ⟨⟨ho,hin.1⟩,hin.2⟩,fun ha => ?_,
      by_contra fun hn => hstray (not_or.mp hn),hcertain⟩
    by_contra he
    rcases ha with hv|hu|ho
    · exact htouches ⟨.inl hv,he⟩
    · exact htouches ⟨.inr hu,he⟩
    · exact hcrosses ⟨ho,he⟩
  · intro h
    refine ⟨⟨⟨⟨⟨h.annotatedEnds,?_⟩,?_⟩,?_⟩,?_⟩,h.certain⟩
    · exact fun ⟨⟨ho,hv⟩,hu⟩ => h.annotatedSubqueries ho ⟨hv,hu⟩
    · exact fun ⟨ha,he⟩ => he (h.annotated (ha.imp_right .inl))
    · exact fun ⟨ho,he⟩ => he (h.annotated (.inr (.inr ho)))
    · exact fun ⟨hv,hu⟩ => h.beside.elim hv hu

/-- An edge keeps its rules if both of its ends are known and it joins them as it should. -/
theorem edgeViolations_iff (h : q.WellFormed) (hy : q.item? e = some y) (he : q.IsEdge e) :
    q.edgeViolations e y = [] ↔ q.KeepsEdge e := by
  obtain ⟨y',ends,hy',hends⟩ := isEdge_iff.mp he
  rw [hy] at hy'
  cases hy'
  rw [edgeViolations,hends]
  simp only
  split
  · rename_i x w hx hw
    obtain ⟨v,hv,hx⟩ := Option.bind_eq_some_iff.mp hx
    obtain ⟨u,hu,hw⟩ := Option.bind_eq_some_iff.mp hw
    have hev : q.Ends e true v := ⟨y,ends,hy,hends,hv⟩
    have heu : q.Ends e false u := ⟨y,ends,hy,hends,hu⟩
    rw [joinViolations_iff (pair?_eq_some.mpr ⟨hev,heu⟩) hy hx hw]
    refine ⟨fun hj => ⟨v,u,hev,heu,hj⟩,fun ⟨v',u',hv',hu',hj⟩ => ?_⟩
    rw [hev.unique hv',heu.unique hu']
    exact hj
  · rename_i hno
    refine iff_of_false nofun ?_
    rintro ⟨v,u,hv,hu,-⟩
    obtain ⟨x,hx,-⟩ := hv.isVertex h
    obtain ⟨w,hw,-⟩ := hu.isVertex h
    have hp := pair?_eq_some.mpr ⟨hv,hu⟩
    rw [pair?,hy,Option.bind_some,hends,Option.bind_some,EdgeEnds.both?_eq_some] at hp
    exact hno x w (by rw [hp.1]; exact hx) (by rw [hp.2]; exact hw)

/-- Where all edges keep their rules, the edges at an annotated vertex are annotated. -/
theorem vertexViolations_nil (h : q.WellFormed) (hx : q.item? v = some x)
    (hedges : ∀ {e}, q.IsEdge e → q.KeepsEdge e) : q.vertexViolations x = [] := by
  rw [vertexViolations]
  split
  · rename_i ha
    rw [List.map_eq_nil_iff,List.filter_eq_nil_iff]
    intro y hy
    obtain ⟨e,he,hy⟩ := List.mem_filterMap.mp hy
    cases hxe : x.edges? with
    | none =>
      rw [hxe] at he
      cases he
    | some edges =>
      rw [hxe] at he
      obtain ⟨s,hs⟩ := exists_ends_iff.mpr ((h.incident.joined hx hxe).mp he)
      obtain ⟨a,b,hea,heb,hj⟩ := hedges hs.isEdge
      have hann : q.Annotated e := by
        refine hj.annotated ?_
        have hv := (isAnnotated_iff hx).mp ha
        cases s with
        | true => exact .inl (hs.unique hea ▸ hv)
        | false => exact .inr (.inl (hs.unique heb ▸ hv))
      simp [(isAnnotated_iff hy).mpr hann]
  · rfl

end Query

end GraphPattern
