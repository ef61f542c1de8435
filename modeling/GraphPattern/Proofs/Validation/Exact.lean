import GraphPattern.Proofs.Description.Build
import GraphPattern.Proofs.Validation.Boundary

/-!
# What validation accepts

A query is accepted exactly if its containers, tests, edges, constraints, derived links and cached
items keep their rules and what cannot be absent hangs together. That no name is missing or given
twice needs no check in a query that was built.
-/

namespace GraphPattern.Query

variable {q : Query} {c : ContainerId} {C : Container} {i j : ItemId} {x : Item} {n : String}

/-! ## Names -/

/-- An item is known by its only name. -/
theorem eq_of_itemNames (h : q.WellFormed) (hi : q.itemNames i = [n]) (hj : q.itemNames j = [n]) :
    i = j := by
  obtain ⟨x,hx,hnx⟩ := mem_itemNames.mp (hi ▸ List.mem_singleton_self n)
  obtain ⟨y,hy,hny⟩ := mem_itemNames.mp (hj ▸ List.mem_singleton_self n)
  exact h.named.disjoint hx hy hnx hny

theorem mem_itemIds (h : q.WellFormed) : i ∈ q.itemIds .whole ↔ ∃ x, q.item? i = some x := by
  rw [itemIds,List.mem_append,h.mem_vertices,h.mem_edges,← exists_or]
  refine exists_congr fun x => ?_
  cases x.isVertex <;> simp

theorem itemSatisfies_names :
    q.itemSatisfies (fun item => item.names = [n]) i = true ↔ q.itemNames i = [n] := by
  rw [itemSatisfies,itemNames]
  cases q.item? i <;> simp

/-- An item is found by a name exactly if that is its only one. -/
theorem itemNamed?_eq_some (h : q.WellFormed) : q.itemNamed? n = some i ↔ q.itemNames i = [n] := by
  refine ⟨fun hi => itemSatisfies_names.mp (List.find?_some hi),fun hi => ?_⟩
  obtain ⟨x,hx,-⟩ := mem_itemNames.mp (hi ▸ List.mem_singleton_self n)
  obtain ⟨j,hj⟩ := Option.isSome_iff_exists.mp
    (List.find?_isSome.mpr ⟨i,(mem_itemIds h).mpr ⟨x,hx⟩,itemSatisfies_names.mpr hi⟩)
  rw [itemNamed?,hj,eq_of_itemNames h (itemSatisfies_names.mp (List.find?_some hj)) hi]

theorem itemNamed?_isSome (h : q.WellFormed) :
    (q.itemNamed? n).isSome = true ↔ ∃ i, q.itemNames i = [n] := by
  rw [Option.isSome_iff_exists]
  exact exists_congr fun i => itemNamed?_eq_some h

theorem namedItem?_of_itemNames (h : q.WellFormed) (hi : q.itemNames i = [n]) :
    ∃ x, q.item? i = some x ∧ q.namedItem? n = some x := by
  obtain ⟨x,hx,-⟩ := mem_itemNames.mp (hi ▸ List.mem_singleton_self n)
  exact ⟨x,hx,by rw [namedItem?,(itemNamed?_eq_some h).mpr hi,Option.bind_some,hx]⟩

theorem namedItem?_isSome (h : q.WellFormed) :
    (q.namedItem? n).isSome = true ↔ ∃ i, q.itemNames i = [n] := by
  constructor
  · intro hs
    obtain ⟨x,hx⟩ := Option.isSome_iff_exists.mp hs
    obtain ⟨i,hi,-⟩ := Option.bind_eq_some_iff.mp hx
    exact ⟨i,(itemNamed?_eq_some h).mp hi⟩
  · rintro ⟨i,hi⟩
    obtain ⟨x,-,hx⟩ := namedItem?_of_itemNames h hi
    rw [hx]
    rfl

theorem unknownNames_iff (h : q.WellFormed) {names : List String} :
    q.unknownNames names = [] ↔ ∀ n ∈ names, ∃ i, q.itemNames i = [n] := by
  rw [unknownNames,List.filter_eq_nil_iff]
  refine forall₂_congr fun n _ => ?_
  rw [← itemNamed?_isSome h]
  cases q.itemNamed? n <;> simp

theorem repeated_eq_nil {seen names : List String} (hn : names.Nodup)
    (hs : ∀ n ∈ names, n ∉ seen) : repeated seen names = [] := by
  induction names generalizing seen with
  | nil => rfl
  | cons n names ih =>
    obtain ⟨hnot,hn⟩ := List.nodup_cons.mp hn
    rw [repeated,if_neg (hs n List.mem_cons_self)]
    refine ih hn fun m hm => ?_
    rw [List.mem_cons,not_or]
    exact ⟨fun he => hnot (he ▸ hm),hs m (List.mem_cons_of_mem _ hm)⟩

/-- The names in a well-formed query are different. -/
theorem nameViolations_nil (h : q.WellFormed) : q.nameViolations = [] := by
  have hids : (q.itemIds .whole).Nodup := by
    refine List.nodup_append.mpr ⟨h.nodup_listing true,h.nodup_listing false,?_⟩
    rintro i hi j hj rfl
    obtain ⟨x,hx,hv⟩ := h.mem_vertices.mp hi
    exact IsEdge.not_isVertex (h.mem_edges.mp hj) ⟨x,hx,hv⟩
  have hnames : (((q.itemIds .whole).filterMap q.item?).flatMap Item.names).Nodup := by
    refine List.nodup_flatMap.mpr ⟨fun x hx => ?_,?_⟩
    · obtain ⟨i,-,hx⟩ := List.mem_filterMap.mp hx
      exact (h.named.named hx).increasing.imp (S:=(· ≠ ·)) fun hlt he =>
        String.lt_irrefl _ (he ▸ hlt)
    · rw [List.pairwise_filterMap]
      exact hids.imp fun hne x hx y hy => List.disjoint_left.mpr fun n hnx hny =>
        hne (h.named.disjoint hx hy hnx hny)
  rw [nameViolations,repeated_eq_nil hnames fun _ _ => List.not_mem_nil]

/-! ## Constraints -/

theorem IsNegated.annotated (h : q.IsNegated i) : q.Annotated i := by
  rw [IsNegated] at h
  intro hn
  rw [hn] at h
  cases h

/-- Whether an annotated item excuses a constraint between containers: a vertex that may be absent, or
an edge whose first annotated end may. -/
def excuses (q : Query) (x : Item) : Bool :=
  match x.ends? with
  | some ends => (([ends.source,ends.target].reduceOption.filterMap q.item?).find?
      Item.isAnnotated).any Item.isNegated
  | none => x.isNegated

/-- Since one end of an edge at most is annotated, it does not count which one comes first. -/
theorem excuses_edge (hx : q.item? i = some x) (he : q.IsEdge i) (hk : q.KeepsEdge i)
    (h : q.WellFormed) : q.excuses x = true ↔ ∃ s v, q.Ends i s v ∧ q.IsNegated v := by
  obtain ⟨v,u,hv,hu,hj⟩ := hk
  obtain ⟨a,ha,-⟩ := hv.isVertex h
  obtain ⟨b,hb,-⟩ := hu.isVertex h
  obtain ⟨y,ends,hy,hends⟩ := isEdge_iff.mp he
  rw [hx] at hy
  cases hy
  have hboth := pair?_eq_some.mpr ⟨hv,hu⟩
  rw [pair?,hx,Option.bind_some,hends,Option.bind_some,EdgeEnds.both?_eq_some] at hboth
  have hright : (∃ s w, q.Ends i s w ∧ q.IsNegated w) ↔ q.IsNegated v ∨ q.IsNegated u := by
    constructor
    · rintro ⟨s,w,hw,hn⟩
      cases s with
      | true => exact .inl (hv.unique hw ▸ hn)
      | false => exact .inr (hu.unique hw ▸ hn)
    · rintro (hn|hn)
      · exact ⟨true,v,hv,hn⟩
      · exact ⟨false,u,hu,hn⟩
  have hleft : [ends.source,ends.target].reduceOption.filterMap q.item? = [a,b] := by
    rw [hboth.1,hboth.2]
    simp [List.reduceOption,ha,hb]
  rw [hright,excuses,hends]
  simp only [hleft]
  by_cases hva : a.isAnnotated = true
  · have hun : ¬q.IsNegated u := fun hn =>
      hj.annotatedEnds ⟨(isAnnotated_iff ha).mp hva,hn.annotated⟩
    rw [List.find?_cons_of_pos hva,Option.any_some,isNegated_iff ha,or_iff_left hun]
  · have hvn : ¬q.IsNegated v := fun hn => hva ((isAnnotated_iff ha).mpr hn.annotated)
    rw [List.find?_cons_of_neg hva,or_iff_right hvn]
    by_cases hub : b.isAnnotated = true
    · rw [List.find?_cons_of_pos hub,Option.any_some,isNegated_iff hb]
    · have hun : ¬q.IsNegated u := fun hn => hub ((isAnnotated_iff hb).mpr hn.annotated)
      rw [List.find?_cons_of_neg hub]
      simpa using hun

theorem excuses_iff (h : q.WellFormed) (hedges : ∀ {e}, q.IsEdge e → q.KeepsEdge e)
    (hx : q.item? i = some x) (ha : q.Annotated i) : q.excuses x = true ↔ q.Excused i := by
  cases hv : x.isVertex with
  | true =>
    have hvertex : q.IsVertex i := ⟨x,hx,hv⟩
    have hends : x.ends? = none := by
      cases hends : x.ends? with
      | none => rfl
      | some ends =>
        rw [Item.not_isVertex_iff.mpr ⟨ends,hends⟩] at hv
        cases hv
    rw [excuses,hends,isNegated_iff hx]
    refine ⟨fun hn => .inl ⟨hvertex,hn⟩,fun hex => hex.elim And.right ?_⟩
    rintro ⟨-,s,v,hs,-⟩
    exact absurd hvertex hs.isEdge.not_isVertex
  | false =>
    have hedge : q.IsEdge i := ⟨x,hx,hv⟩
    rw [excuses_edge hx hedge (hedges hedge) h,Excused,and_iff_right ha]
    exact (or_iff_right fun hn => hedge.not_isVertex hn.1).symm

/-- A constraint between containers needs an item that may be absent. -/
theorem spanViolations_iff (h : q.WellFormed) (hedges : ∀ {e}, q.IsEdge e → q.KeepsEdge e)
    {w : Item} {m : String} (hx : q.item? i = some x) (hw : q.item? j = some w)
    (hone : ¬(q.Annotated i ∧ q.Annotated j)) :
    q.spanViolations (n,x) (m,w) = [] ↔ q.Excused i ∨ q.Excused j := by
  have hspan : ∀ {z : Item}, (match z.ends? with
      | some ends =>
        if ((([ends.source,ends.target].reduceOption.filterMap q.item?).find?
          Item.isAnnotated).any Item.isNegated) = true then []
        else [Violation.edgeWithoutNegatedEnd n m]
      | none => if z.isNegated = true then [] else [.spanWithoutNegated n m]) = [] ↔
        q.excuses z = true := fun {z} => by
    rw [excuses]
    cases z.ends? <;> simp only [ite_eq_left_iff,imp_false,not_not,List.cons_ne_self]
  have hexcused : ∀ {k}, q.Excused k → q.Annotated k := fun hk =>
    hk.elim (fun hn => hn.2.annotated) And.left
  rw [spanViolations]
  by_cases hi : q.Annotated i
  · have hj : ¬q.Excused j := fun hj => hone ⟨hi,hexcused hj⟩
    rw [List.find?_cons_of_pos ((isAnnotated_iff hx).mpr hi),or_iff_left hj,
      ← excuses_iff h hedges hx hi]
    exact hspan
  · rw [List.find?_cons_of_neg fun ha => hi ((isAnnotated_iff hx).mp ha),
      or_iff_right fun hex => hi (hexcused hex)]
    by_cases hj : q.Annotated j
    · rw [List.find?_cons_of_pos ((isAnnotated_iff hw).mpr hj),← excuses_iff h hedges hw hj]
      exact hspan
    · rw [List.find?_cons_of_neg fun ha => hj ((isAnnotated_iff hw).mp ha)]
      exact iff_of_false nofun fun hex => hj (hexcused hex)

/-- Two items keep the rules of a constraint if it may relate them. -/
theorem pairViolations_iff (h : q.WellFormed) (hedges : ∀ {e}, q.IsEdge e → q.KeepsEdge e)
    {w : Item} {m : String} (hx : q.item? i = some x) (hw : q.item? j = some w) :
    q.pairViolations (n,x) (m,w) = [] ↔ q.Relatable i j := by
  have hedge : ∀ {k z}, q.item? k = some z → (z.isEdge = true ↔ q.IsEdge k) := fun {k z} hz => by
    rw [Item.isEdge,Bool.not_eq_true',IsEdge]
    refine ⟨fun hv => ⟨z,hz,hv⟩,fun he => ?_⟩
    obtain ⟨z',hz',hv⟩ := he
    rw [hz] at hz'
    cases hz'
    exact hv
  have halike : x.isEdge = w.isEdge ↔ (q.IsEdge i ↔ q.IsEdge j) := by
    rw [Bool.eq_iff_iff,hedge hx,hedge hw]
  rw [pairViolations]
  simp only [List.append_eq_nil_iff,breach_iff,Bool.and_eq_true,decide_eq_true_eq,ne_eq,not_not,
    isAnnotated_iff hx,isAnnotated_iff hw,inAnnotatedSubquery_iff hx,inAnnotatedSubquery_iff hw,
    halike,← itemOwner_of_some hx,← itemOwner_of_some hw]
  have hspan : ¬(q.Annotated i ∧ q.Annotated j) →
      ((if q.itemOwner i = q.itemOwner j then [] else q.spanViolations (n,x) (m,w)) = [] ↔
        (q.itemOwner i ≠ q.itemOwner j → q.Excused i ∨ q.Excused j)) := fun hone => by
    rw [← spanViolations_iff h hedges (n:=n) (m:=m) hx hw hone]
    by_cases ho : q.itemOwner i = q.itemOwner j <;> simp [ho]
  constructor
  · rintro ⟨⟨⟨⟨halike,hone⟩,hi⟩,hj⟩,hapart⟩
    exact ⟨halike,hone,⟨hi,hj⟩,(hspan hone).mp hapart⟩
  · intro hr
    exact ⟨⟨⟨⟨hr.alike,hr.annotated⟩,hr.inside.1⟩,hr.inside.2⟩,(hspan hr.annotated).mpr hr.apart⟩

theorem hasMixedOperands_iff {k : Constraint} : k.hasMixedOperands = false ↔
    ∀ {n m a b}, k.left = .item n a → k.right = .item m b → (a = none ↔ b = none) := by
  rw [Constraint.hasMixedOperands]
  split
  · rename_i n a m b hl hr
    have hsome : a.isSome = b.isSome ↔ (a = none ↔ b = none) := by
      cases a <;> cases b <;> simp
    rw [decide_eq_false_iff_not,not_not,hsome]
    refine ⟨fun h n' m' a' b' hl' hr' => ?_,fun h => h hl hr⟩
    rw [hl] at hl'
    rw [hr] at hr'
    cases hl'
    cases hr'
    exact h
  · rename_i hno
    exact iff_of_true rfl fun hl hr => absurd hr (hno _ _ _ _ hl)

/-- A constraint keeps its rules if its operator relates two values, its operands fit and are there,
and it may relate its items. -/
theorem constraintViolations_iff (h : q.WellFormed) (hedges : ∀ {e}, q.IsEdge e → q.KeepsEdge e)
    {k : Constraint} : q.constraintViolations k = [] ↔ q.KeepsConstraint k := by
  have hoperator : (if (Comparison.ofKeyword? k.operator).any Comparison.isBinary then []
      else [Violation.constraintOperator k.operator]) = [] ↔
        ∃ op, Comparison.ofKeyword? k.operator = some op ∧ op.isBinary = true := by
    rw [← Option.any_eq_true]
    cases (Comparison.ofKeyword? k.operator).any Comparison.isBinary <;> simp
  have hknown : (k.itemNames.filter fun name => (q.namedItem? name).isNone) = [] ↔
      ∀ n ∈ k.itemNames, ∃ i, q.itemNames i = [n] := by
    rw [List.filter_eq_nil_iff]
    refine forall₂_congr fun n _ => ?_
    rw [← namedItem?_isSome h]
    cases q.namedItem? n <;> simp
  rw [constraintViolations]
  simp only [List.append_eq_nil_iff,List.map_eq_nil_iff,breach_iff,Bool.not_eq_true,hknown,
    hasMixedOperands_iff]
  constructor
  · rintro ⟨⟨⟨ho,hm⟩,hk⟩,hp⟩
    refine ⟨hoperator.mp ho,hm,hk,fun {n m i j} hn hi hj => ?_⟩
    obtain ⟨x,hx,hnx⟩ := namedItem?_of_itemNames h hi
    obtain ⟨w,hw,hmw⟩ := namedItem?_of_itemNames h hj
    rw [hn] at hp
    simp only [List.map_cons,List.map_nil,hnx,hmw,Option.map_some] at hp
    exact (pairViolations_iff h hedges hx hw).mp hp
  · intro hc
    refine ⟨⟨⟨hoperator.mpr hc.operator,hc.operands⟩,hc.known⟩,?_⟩
    split
    · rename_i left right hmap
      obtain ⟨n,names,hn,hleft,hrest⟩ := List.map_eq_cons_iff.mp hmap
      obtain ⟨m,names,rfl,hright,hnil⟩ := List.map_eq_cons_iff.mp hrest
      cases List.map_eq_nil_iff.mp hnil
      obtain ⟨i,hi⟩ := hc.known n (by rw [hn]; exact List.mem_cons_self)
      obtain ⟨j,hj⟩ := hc.known m (by rw [hn]; exact List.mem_cons_of_mem _ List.mem_cons_self)
      obtain ⟨x,hx,hnx⟩ := namedItem?_of_itemNames h hi
      obtain ⟨w,hw,hmw⟩ := namedItem?_of_itemNames h hj
      rw [hnx] at hleft
      rw [hmw] at hright
      cases hleft
      cases hright
      exact (pairViolations_iff h hedges hx hw).mpr (hc.related hn hi hj)
    · rfl

/-! ## Visits -/

/-- The rules of queries. -/
structure Accepted (q : Query) : Prop where
  /-- Containers keep their rules. -/
  containers : ∀ {c C}, q.container? c = some C → q.KeepsContainer c
  /-- Tests can be carried out. -/
  tests : ∀ {i t}, t ∈ q.itemTests i → t.Meaningful
  /-- Edges keep their rules. -/
  edges : ∀ {e}, q.IsEdge e → q.KeepsEdge e
  /-- Constraints keep their rules. -/
  constraints : ∀ {c C k}, q.container? c = some C → k ∈ C.constraints → q.KeepsConstraint k
  /-- Derived links lead from items of the query to items of the query. -/
  links : ∀ {c C l}, q.container? c = some C → l ∈ C.links →
    (∃ i, q.itemNames i = [l.source]) ∧ ∃ i, q.itemNames i = [l.target]
  /-- Cached items are items of the query. -/
  cached : ∀ {c C n s}, q.container? c = some C → (n,s) ∈ C.cached.entries →
    ∃ i, q.itemNames i = [n]
  /-- No item has a name without characters. -/
  proper : ∀ {i}, "" ∉ q.itemNames i
  /-- No two items share a name. -/
  disjoint : ∀ {i j n}, n ∈ q.itemNames i → n ∈ q.itemNames j → i = j
  /-- What cannot be absent hangs together. -/
  connected : q.SurelyConnected

/-- A query without violations keeps the rules. -/
theorem accepted_of_violations (h : q.WellFormed) (hv : q.violations = []) : q.Accepted := by
  have hvisit := fun {e d D} => visit_of_violations h hv (e:=e) (d:=d) (D:=D)
  have hitem : ∀ {i x}, q.item? i = some x → itemViolations x = [] ∧
      (x.isVertex = false → q.edgeViolations i x = []) := fun {i x} hx => by
    obtain ⟨c,C,-,hC,hm⟩ := h.owned.owner hx
    have hnone := hvisit hC (mem_eventsOf_member.mpr hm)
    cases hxv : x.isVertex with
    | true =>
      rw [hxv,memberEvent,visitViolations,hx,Option.elim_some,List.append_eq_nil_iff] at hnone
      exact ⟨hnone.1,fun hf => by cases hf⟩
    | false =>
      rw [hxv,memberEvent,visitViolations,hx,Option.elim_some,List.append_eq_nil_iff] at hnone
      exact ⟨hnone.1,fun _ => hnone.2⟩
  have hedges : ∀ {e}, q.IsEdge e → q.KeepsEdge e := fun he => by
    obtain ⟨y,hy,hyv⟩ := he
    exact (edgeViolations_iff h hy ⟨y,hy,hyv⟩).mp ((hitem hy).2 hyv)
  refine ⟨fun hC => ?_,fun {i t} ht => ?_,hedges,fun hC hk => ?_,fun hC hl => ?_,fun hC hn => ?_,
    fun {i} hi => ?_,fun {i j n} hi hj => ?_,?_⟩
  · have hnone := hvisit hC (mem_eventsOf_enter.mpr rfl)
    rw [visitViolations,hC,Option.elim_some] at hnone
    exact (containerViolations_iff h hC).mp hnone
  · cases hx : q.item? i with
    | none =>
      rw [itemTests,hx] at ht
      cases ht
    | some x => exact (itemViolations_iff h hx).mp (hitem hx).1 t ht
  · exact (constraintViolations_iff h hedges).mp (hvisit hC (mem_eventsOf_constraint.mpr hk))
  · have hnone := List.map_eq_nil_iff.mp (hvisit hC (mem_eventsOf_link.mpr hl))
    have hall := (unknownNames_iff h).mp hnone
    exact ⟨hall _ List.mem_cons_self,hall _ (List.mem_cons_of_mem _ List.mem_cons_self)⟩
  · have hnone := List.map_eq_nil_iff.mp (hvisit hC (mem_eventsOf_cached.mpr hn))
    exact (unknownNames_iff h).mp hnone _ List.mem_cons_self
  · obtain ⟨x,hx,hn⟩ := mem_itemNames.mp hi
    exact (h.named.named hx).proper hn
  · obtain ⟨x,hx,hnx⟩ := mem_itemNames.mp hi
    obtain ⟨y,hy,hny⟩ := mem_itemNames.mp hj
    exact h.named.disjoint hx hy hnx hny
  · rw [violations,List.append_eq_nil_iff] at hv
    exact (connectionViolations_iff h).mp hv.2

/-- A query that keeps the rules has no violation. -/
theorem violations_of_accepted (h : q.WellFormed) (ha : q.Accepted) : q.violations = [] := by
  rw [violations,List.append_eq_nil_iff,List.append_eq_nil_iff]
  refine ⟨⟨List.flatMap_eq_nil_iff.mpr fun visit hvisit => ?_,nameViolations_nil h⟩,
    (connectionViolations_iff h).mpr ha.connected⟩
  obtain ⟨d,D,hD,hevent,-⟩ := shows_of_walk h.nested hvisit
  have hitem : ∀ {i x}, q.item? i = some x → itemViolations x = [] := fun hx =>
    (itemViolations_iff h hx).mpr fun t ht => ha.tests ht
  cases hv : visit.event with
  | leave | vertices | edges | constraints => rfl
  | enter c =>
    rw [hv] at hevent
    cases mem_eventsOf_enter.mp (hevent.resolve_right fun he => by cases he)
    rw [visitViolations,hD,Option.elim_some]
    exact (containerViolations_iff h hD).mpr (ha.containers hD)
  | vertex v =>
    rw [visitViolations]
    cases hx : q.item? v with
    | none => rfl
    | some x =>
      rw [Option.elim_some,hitem hx,vertexViolations_nil h hx ha.edges]
      rfl
  | edge e =>
    rw [hv] at hevent
    obtain ⟨y,hy,hyv,-⟩ := h.owned.member hD
      (mem_eventsOf_member (b:=false) |>.mp (hevent.resolve_right fun he => by cases he))
    have he : q.IsEdge e := ⟨y,hy,hyv⟩
    rw [visitViolations,hy,Option.elim_some,hitem hy,
      (edgeViolations_iff h hy he).mpr (ha.edges he)]
    rfl
  | constraint k =>
    rw [hv] at hevent
    exact (constraintViolations_iff h ha.edges).mpr
      (ha.constraints hD (mem_eventsOf_constraint.mp
        (hevent.resolve_right fun he => by cases he)))
  | link l =>
    rw [hv] at hevent
    obtain ⟨hs,ht⟩ := ha.links hD (mem_eventsOf_link.mp
      (hevent.resolve_right fun he => by cases he))
    refine List.map_eq_nil_iff.mpr ((unknownNames_iff h).mpr fun n hn => ?_)
    rcases List.mem_cons.mp hn with rfl|hn
    · exact hs
    · exact List.mem_singleton.mp hn ▸ ht
  | cached n s =>
    rw [hv] at hevent
    have hn := ha.cached hD (mem_eventsOf_cached.mp
      (hevent.resolve_right fun he => by cases he))
    exact List.map_eq_nil_iff.mpr ((unknownNames_iff h).mpr fun m hm =>
      List.mem_singleton.mp hm ▸ hn)

/-- A query that was built is valid exactly if it keeps the rules. -/
theorem isValid_iff {d : Description} (hq : d.build = .ok q) : q.isValid = true ↔ q.Accepted := by
  have h := (Description.written_build hq).wellFormed
  rw [isValid,List.isEmpty_iff]
  exact ⟨accepted_of_violations h,violations_of_accepted h⟩

/-- A vertex with an edge into an annotated subquery, which has the given bounds. -/
def branched (bounds : Option Annotation) : Description :=
  ⟨"q","",⟨[⟨"A",none,none⟩,⟨"B",none,some ⟨some 0,some 1⟩⟩],
    [⟨"x","A","S",true,none,bounds⟩,⟨"y","A","B",true,none,some ⟨some 1,none⟩⟩],[],[],[]⟩,
    [.mk (some ⟨some 0,some 2⟩) ⟨[⟨"S",none,none⟩],[],[],[],[]⟩ []]⟩

/-- An edge into a subquery has to be annotated. -/
theorem isValid_iff_branched :
    (∃ q, (branched (some ⟨some 1,none⟩)).build = .ok q ∧ q.Accepted) ∧
      ∃ q, (branched none).build = .ok q ∧ ¬q.Accepted := by
  have hbuilt : ∀ {d : Description} {p : Query → Bool}, d.build.toOption.any p = true →
      ∃ q, d.build = .ok q ∧ p q = true := fun {d p} h => by
    cases hd : d.build with
    | error e =>
      rw [hd] at h
      cases h
    | ok q =>
      rw [hd] at h
      exact ⟨q,rfl,h⟩
  constructor
  · obtain ⟨q,hq,hv⟩ := hbuilt (d:=branched (some ⟨some 1,none⟩)) (p:=isValid) (by
      rw [Description.build,Description.addAll,branched]
      simp only [Description.addSubqueries]
      decide +kernel)
    exact ⟨q,hq,(isValid_iff hq).mp hv⟩
  · obtain ⟨q,hq,hv⟩ := hbuilt (d:=branched none) (p:=fun q => !q.isValid) (by
      rw [Description.build,Description.addAll,branched]
      simp only [Description.addSubqueries]
      decide +kernel)
    refine ⟨q,hq,fun ha => ?_⟩
    rw [(isValid_iff hq).mpr ha] at hv
    cases hv

end GraphPattern.Query
