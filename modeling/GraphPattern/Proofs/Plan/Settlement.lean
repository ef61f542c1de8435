import GraphPattern.Proofs.Description.Reading
import GraphPattern.Proofs.Plan.Solution

/-!
# Which constraint is removed

A constraint is processed if it is not annotated, but what is removed is found by its relation
alone: the first constraint that states it, container by container in the order of their numbers.
An annotated constraint can therefore go in place of the one that is processed. The order of the
constraints never changes, so of those that state one relation the last one goes last, and it goes
only if it is not annotated.
-/

namespace GraphPattern

open Relation Rule

/-- A constraint says all that another one says: the same relation, annotated alike. -/
structure Constraint.Agrees (k l : Constraint) : Prop where
  /-- It states the same relation. -/
  relation : k.sameRelation l = true
  /-- The same item is annotated. -/
  annotatedItem : l.annotatedItem = k.annotatedItem
  /-- The annotations are the same. -/
  bounds : l.bounds = k.bounds

/-- Behind every annotated constraint stands one without annotation that states the same
relation. -/
def Constraint.Settleable : List Constraint → Prop
  | [] => True
  | k :: ks => (k.bounds ≠ none → ∃ l ∈ ks, l.bounds = none ∧ k.sameRelation l = true) ∧
    Settleable ks

namespace Query

variable {q q' u : Query} {k found : Constraint} {c : ContainerId}
  {before after : List Constraint}

/-! ## The order in which constraints are looked for -/

/-- All constraints, by the numbers of their containers and as each container lists them. -/
def constraintsByNumber (q : Query) : List Constraint :=
  (List.range q.containers.next).flatMap fun i => q.declared ⟨i⟩

theorem declared_of_next_le (h : q.containers.next≤c.index) : q.declared c = [] := by
  cases hC : q.container? c with
  | none => rw [declared,hC]; rfl
  | some C => exact absurd (index_lt_of_container? hC) (Nat.not_lt_of_le h)

/-- Numbers that have not been given out add nothing. -/
theorem flatMap_declared {n : Nat} (h : q.containers.next≤n) :
    ((List.range n).flatMap fun i => q.declared ⟨i⟩) = q.constraintsByNumber := by
  obtain ⟨m,rfl⟩ := Nat.exists_eq_add_of_le h
  rw [List.range_add,List.flatMap_append,List.flatMap_map,constraintsByNumber,
    List.flatMap_eq_nil_iff.mpr fun i _ => declared_of_next_le (Nat.le_add_right _ i),
    List.append_nil]

theorem mem_constraintsByNumber : k ∈ q.constraintsByNumber ↔ ∃ c, k ∈ q.declared c := by
  rw [constraintsByNumber,List.mem_flatMap]
  constructor
  · rintro ⟨i,-,hk⟩
    exact ⟨⟨i⟩,hk⟩
  · rintro ⟨c,hk⟩
    obtain ⟨C,hC,-⟩ := mem_declared.mp hk
    exact ⟨c.index,List.mem_range.mpr (index_lt_of_container? hC),hk⟩

theorem constraintsByNumber_congr (h : ∀ c, q'.declared c = q.declared c) :
    q'.constraintsByNumber = q.constraintsByNumber := by
  rw [← flatMap_declared (Nat.le_max_left q'.containers.next q.containers.next),
    ← flatMap_declared (Nat.le_max_right q'.containers.next q.containers.next)]
  simp only [h]

theorem flatMap_constraints (q : Query) (cs : List ContainerId) :
    (cs.filterMap q.container?).flatMap Container.constraints = cs.flatMap q.declared := by
  induction cs with
  | nil => rfl
  | cons c cs ih =>
    rw [List.flatMap_cons,← ih,declared]
    cases hC : q.container? c <;> simp [hC]

/-- The constraints of a query are those of its containers by number, in another order. -/
theorem WellFormed.perm_constraintsByNumber (h : q.WellFormed) :
    (q.constraints .whole).Perm q.constraintsByNumber := by
  let numbered := (List.range q.containers.next).map ContainerId.mk
  have hnumbered : numbered.Nodup :=
    List.nodup_range.map fun _ _ he => congrArg ContainerId.index he
  have hlive : q.containerIds.Perm (numbered.filter fun c => (q.container? c).isSome) := by
    refine (List.perm_ext_iff_of_nodup h.nested.nodup_containerIds (hnumbered.filter _)).mpr
      fun c => ?_
    rw [h.nested.mem_containerIds,List.mem_filter]
    refine ⟨fun hc => ⟨List.mem_map.mpr ⟨c.index,List.mem_range.mpr ?_,rfl⟩,hc⟩,And.right⟩
    obtain ⟨C,hC⟩ := Option.isSome_iff_exists.mp hc
    exact index_lt_of_container? hC
  have hdead : ∀ cs : List ContainerId, (cs.filter fun c => (q.container? c).isSome).flatMap
      q.declared = cs.flatMap q.declared := by
    intro cs
    induction cs with
    | nil => rfl
    | cons c cs ih =>
      rw [List.filter_cons,List.flatMap_cons,← ih,declared]
      cases hC : q.container? c <;> simp [declared,hC]
  have hwhole : q.constraints .whole = q.containerIds.flatMap q.declared :=
    flatMap_constraints q q.containerIds
  rw [hwhole]
  refine (hlive.flatMap_right _).trans (.of_eq ?_)
  rw [hdead,List.flatMap_map]
  rfl

/-! ## What is removed -/

theorem takeFirst_of_append {α : Type} {p : α → Bool} {before after : List α} {a : α}
    (ha : p a = true) (hb : ∀ b ∈ before, p b = false) :
    takeFirst p (before ++ a :: after) = some (a,before ++ after) := by
  induction before with
  | nil => simp [takeFirst,ha]
  | cons b before ih =>
    have hpb := hb b List.mem_cons_self
    simp [takeFirst,hpb,ih fun c hc => hb c (List.mem_cons_of_mem b hc)]

/-- What a reduction drops is the first constraint of its relation, and the order of the others
stays. -/
theorem Drops.takeFirst (h : q.Drops q' k found c before after) :
    takeFirst k.sameRelation q.constraintsByNumber = some (found,q'.constraintsByNumber) := by
  have hc : c.index<q.containers.next := by
    by_contra hn
    have hhere := h.here
    rw [declared_of_next_le (Nat.le_of_not_lt hn)] at hhere
    exact List.append_ne_nil_of_right_ne_nil before (List.cons_ne_nil found after) hhere.symm
  obtain ⟨m,hm⟩ := Nat.exists_eq_add_of_lt
    (Nat.lt_of_lt_of_le hc (Nat.le_max_left _ q'.containers.next))
  -- The containers with smaller numbers, the one in question, and the others.
  have hsplit : List.range (max q.containers.next q'.containers.next) =
      List.range c.index ++ c.index :: (List.range m).map fun i => c.index+(i+1) := by
    rw [hm,Nat.add_assoc,List.range_add,List.range_succ_eq_map,List.map_cons,List.map_map]
    rfl
  have hearlier : ∀ i ∈ List.range c.index, q'.declared ⟨i⟩ = q.declared ⟨i⟩ := fun i hi =>
    h.other _ fun he => Nat.ne_of_lt (List.mem_range.mp hi) (congrArg ContainerId.index he)
  have hlater : ∀ i ∈ (List.range m).map fun i => c.index+(i+1),
      q'.declared ⟨i⟩ = q.declared ⟨i⟩ := by
    intro i hi
    obtain ⟨j,-,rfl⟩ := List.mem_map.mp hi
    refine h.other _ fun he => ?_
    have hindex : c.index+(j+1) = c.index := congrArg ContainerId.index he
    omega
  rw [← flatMap_declared (Nat.le_max_left q.containers.next q'.containers.next),
    ← flatMap_declared (Nat.le_max_right q.containers.next q'.containers.next),hsplit,
    List.flatMap_append,List.flatMap_append,List.flatMap_cons,List.flatMap_cons,
    List.flatMap_congr hearlier,List.flatMap_congr hlater,h.here,h.rest]
  simp only [List.append_assoc,List.cons_append]
  rw [← List.append_assoc,takeFirst_of_append h.like fun j hj => ?_,List.append_assoc]
  rcases List.mem_append.mp hj with hj|hj
  · obtain ⟨i,hi,hj⟩ := List.mem_flatMap.mp hj
    exact h.earlier ⟨i⟩ (List.mem_range.mp hi) j hj
  · exact h.unlike j hj

/-- The constraints of a query after one has been processed. -/
structure Settles (q q' : Query) (k found : Constraint) : Prop where
  /-- One constraint is gone and all others are left. -/
  perm : (q.constraints .whole).Perm (found :: q'.constraints .whole)
  /-- It was the first of its relation, and the order of the others is the same. -/
  first : takeFirst k.sameRelation q.constraintsByNumber = some (found,q'.constraintsByNumber)

theorem Drops.settles (h : q.Drops q' k found c before after) (hq : q.WellFormed)
    (hq' : q'.WellFormed) : q.Settles q' k found := by
  refine ⟨hq.perm_constraintsByNumber.trans ?_,h.takeFirst⟩
  obtain ⟨bs,as,hsplit,hrest,-⟩ := takeFirst_first h.takeFirst
  rw [hsplit]
  refine List.perm_middle.trans (.cons _ ?_)
  rw [← hrest]
  exact hq'.perm_constraintsByNumber.symm

/-! ## What goes in the end -/

/-- A constraint that is left was there. -/
theorem ReducesTo.declared (h : q.WellFormed) (hr : q.ReducesTo q') (hk : k ∈ q'.declared c) :
    k ∈ q.declared c := by
  obtain ⟨rule,a,out,hr⟩ := hr
  rcases hr.declared h with ⟨-,hsame⟩|⟨l,found,d,before,after,-,-,hdrops⟩
  · rwa [← hsame]
  · by_cases hd : c = d
    · rw [hd] at hk ⊢
      rw [hdrops.rest] at hk
      rw [hdrops.here]
      exact List.mem_append.mpr ((List.mem_append.mp hk).imp_right (List.mem_cons_of_mem found))
    · rwa [← hdrops.other c hd]

theorem declared_of_reflTransGen (h : q.WellFormed) (hr : ReflTransGen ReducesTo q u)
    (hk : k ∈ u.declared c) : k ∈ q.declared c := by
  induction hr with
  | refl => exact hk
  | tail hrest hstep ih => exact ih (hstep.declared (wellFormed_of_reflTransGen h hrest) hk)

end Query

namespace Constraint

variable {k found : Constraint} {ks rest : List Constraint}

/-- A constraint can be put back if it is not annotated, or if one that is not stands behind it. -/
theorem Settleable.insert {before after : List Constraint} (h : Settleable (before ++ after))
    (hk : k.bounds ≠ none → ∃ l ∈ after, l.bounds = none ∧ k.sameRelation l = true) :
    Settleable (before ++ k :: after) := by
  induction before with
  | nil => exact ⟨hk,h⟩
  | cons b before ih =>
    refine ⟨fun hb => ?_,ih h.2⟩
    obtain ⟨l,hl,hlb,hlr⟩ := h.1 hb
    exact ⟨l,List.mem_append.mpr ((List.mem_append.mp hl).imp_right (List.mem_cons_of_mem k)),
      hlb,hlr⟩

/-- What can be settled after a constraint was processed could be settled before: if an annotated
constraint went, then the processed one stands behind it. -/
theorem Settleable.of_takeFirst (h : Settleable rest)
    (ht : Query.takeFirst k.sameRelation ks = some (found,rest)) (hk : k ∈ ks)
    (hb : k.bounds = none) : Settleable ks := by
  obtain ⟨before,after,rfl,rfl,hlike,hunlike⟩ := Query.takeFirst_first ht
  refine h.insert fun hfound => ⟨k,?_,hb,sameRelation_symm hlike⟩
  rcases List.mem_append.mp hk with hk|hk
  · have hself := sameRelation_self (sameRelation_symm hlike)
    rw [hunlike k hk] at hself
    cases hself
  · rcases List.mem_cons.mp hk with rfl|hk
    · exact absurd hb hfound
    · exact hk

end Constraint

namespace Query

variable {q : Query}

/-- A query that can be solved has behind every annotated constraint one without annotation that
states the same relation. -/
theorem Solvable.settleable (h : q.WellFormed) (hs : q.Solvable) :
    Constraint.Settleable q.constraintsByNumber := by
  refine hs.back (P:=fun q => Constraint.Settleable q.constraintsByNumber) h ?_ ?_
  · intro u hu hc
    obtain ⟨-,-,-,-,-,-,hnone⟩ := eq_of_consolidated hu hc
    have hempty : u.constraintsByNumber = [] :=
      List.flatMap_eq_nil_iff.mpr fun i _ => hnone ⟨i⟩
    rw [hempty]
    trivial
  · intro q q' rule a out hq hr ih
    rcases hr.declared hq with ⟨-,hsame⟩|⟨k,found,c,before,after,-,hprocessed,hdrops⟩
    · rwa [← constraintsByNumber_congr hsame]
    · exact ih.of_takeFirst hdrops.takeFirst (mem_constraintsByNumber.mpr hprocessed.declared)
        hprocessed.bounds

end Query

/-- An entry without annotation gives a constraint without an annotated item. -/
theorem ConstraintEntry.annotatedItem_of_constraint {c : ConstraintEntry} {k : Constraint}
    (h : c.constraint = .ok k) (hb : k.bounds = none) : k.annotatedItem = none := by
  have hentry := entry_constraint h
  have hitem : k.annotatedItem = c.settled.annotatedItem :=
    congrArg ConstraintEntry.annotatedItem hentry
  have hbounds : k.bounds = c.settled.bounds := congrArg ConstraintEntry.bounds hentry
  rw [hb] at hbounds
  obtain ⟨operator,left,right,item,bounds⟩ := c
  rw [hitem]
  cases item <;> cases bounds <;> first | rfl | cases hbounds

theorem Description.annotatedItem_of_build {d : Description} {q : Query} (hq : d.build = .ok q) :
    q.Constrained fun k => k.bounds = none → k.annotatedItem = none := by
  refine (sound_build (P:=fun k => k.bounds = none → k.annotatedItem = none)
    (fun _ _ _ _ k _ hk => ?_) hq).2
  exact ConstraintEntry.annotatedItem_of_constraint (k:=k) hk

namespace Rule

variable {q : Query} {v : ItemId} {as : List Application} {a : Application}

/-- An application of the rule for constraints carries a declared constraint without annotation. If
that is like itself, it is processed, and the first one like it goes. -/
theorem settles_of_listed (h : q.WellFormed)
    (has : processConstraint.applications q v = .ok as) (ha : a ∈ as) :
    ∃ k, a.constraint = some k ∧ k ∈ q.constraints .whole ∧ k.bounds = none ∧
      (k.sameRelation k = false → ∃ e, processConstraint.apply q a = .error e) ∧
      (k.sameRelation k = true → ∃ found q', processConstraint.apply q a = .ok ⟨q',v⟩ ∧
        q.Settles q' k found) := by
  have hlive : ∃ x, q.item? v = some x := by
    cases hx : q.item? v with
    | some x => exact ⟨x,rfl⟩
    | none =>
      change ProcessConstraint.applications q v = _ at has
      rw [ProcessConstraint.applications,Query.item_of_none hx] at has
      cases has
  obtain ⟨x,hx⟩ := hlive
  obtain ⟨k,hcarried,hk,hb,⟨q',hr⟩|⟨he,hnone⟩⟩ := processConstraint_listed hx has ha
  · obtain ⟨happly,hq'⟩ := hr.applied h
    rcases hr.declared h with ⟨hno,-⟩|⟨l,found,c,before,after,hl,-,hdrops⟩
    · rw [hcarried] at hno
      cases hno
    · cases hcarried.symm.trans hl
      refine ⟨k,hcarried,hk,hb,fun hself => ?_,fun _ => ⟨found,q',happly,hdrops.settles h hq'⟩⟩
      rw [Constraint.sameRelation_self (Constraint.sameRelation_symm hdrops.like)] at hself
      cases hself
  · refine ⟨k,hcarried,hk,hb,fun _ => he,fun hself => ?_⟩
    obtain ⟨c,C,hc,hm⟩ := Query.exists_container_of_mem hk
    rw [hnone c C hc k hm] at hself
    cases hself

end Rule

namespace Plan

variable {rules : List Rule} {config : SearchConfig} {q : Query} {plan : Plan}

/-- Processing a constraint removes exactly one constraint, the first that states the same relation.
For every query that is built, all rules of the library, every configuration and every state of the
search: an application carries a declared constraint without annotation, and applying it removes
one constraint and keeps the order of all others; what goes agrees with what is carried unless a
constraint of the relation is annotated. The state is consolidated only if, in the query that was
built, every annotated constraint has behind it one of its relation without annotation. -/
theorem settles_state {d : Description} (hq : d.build = .ok q)
    (hr : ∀ rule ∈ rules, rule ∈ Rule.builtIn) (h : ofQuery rules config q = .ok plan) {s : StateId}
    {st : SearchState} (hs : plan.graph.state? s = some st) :
    (∀ v as, Rule.processConstraint.applications st.query v = .ok as → ∀ a ∈ as,
      ∃ k, a.constraint = some k ∧ k ∈ st.query.constraints .whole ∧ k.bounds = none ∧
        (k.sameRelation k = false → ∃ e, Rule.processConstraint.apply st.query a = .error e) ∧
        (k.sameRelation k = true → ∃ found p,
          Rule.processConstraint.apply st.query a = .ok ⟨p,v⟩ ∧ st.query.Settles p k found ∧
            ((∀ l ∈ st.query.constraints .whole, k.sameRelation l = true → l.bounds = none) →
              k.Agrees found))) ∧
    (st.query.isConsolidated = true → Constraint.Settleable q.constraintsByNumber) := by
  have hw := (Description.written_build hq).wellFormed
  obtain ⟨o,p,hrun,rfl⟩ := run_of_ofQuery h
  have hf := (Search.run_kept hrun).faithful
  have hreduced := hf.reduced hr hw hs
  have hst := Query.wellFormed_of_reflTransGen hw hreduced
  constructor
  · intro v as has a ha
    obtain ⟨k,hcarried,hk,hb,hunlike,hself⟩ := Rule.settles_of_listed hst has ha
    refine ⟨k,hcarried,hk,hb,hunlike,fun hlike => ?_⟩
    obtain ⟨found,q',happly,hsettles⟩ := hself hlike
    refine ⟨found,q',happly,hsettles,fun hall => ?_⟩
    have hfound : found ∈ st.query.constraints .whole :=
      hsettles.perm.mem_iff.mpr List.mem_cons_self
    obtain ⟨-,-,-,-,hsame,-⟩ := Query.takeFirst_first hsettles.first
    have hbf := hall found hfound hsame
    refine ⟨hsame,?_,hbf.trans hb.symm⟩
    -- Neither of the two constraints has an annotated item, since neither is annotated.
    have hbare : ∀ l ∈ st.query.constraints .whole, l.bounds = none → l.annotatedItem = none := by
      intro l hl
      obtain ⟨c,hl⟩ := Query.mem_constraintsByNumber.mp
        (hst.perm_constraintsByNumber.mem_iff.mp hl)
      obtain ⟨C,hC,hl⟩ :=
        Query.mem_declared.mp (Query.declared_of_reflTransGen hw hreduced hl)
      exact Description.annotatedItem_of_build hq c C l hC hl
    rw [hbare found hfound hbf,hbare k hk hb]
  · intro hc
    exact Query.Solvable.settleable hw ⟨_,hreduced,hc⟩

/-- A vertex and two constraints of one relation, the first of them annotated, as described. -/
def annotatedFirst : Description :=
  ⟨"q","",⟨[⟨"A",none,none⟩],[],[⟨"eq",.item "A" (some "x"),.literal (.int 1),some "A",
      some ⟨some 1,none⟩⟩,⟨"eq",.item "A" (some "x"),.literal (.int 1),none,none⟩],[],[]⟩,[]⟩

/-- The annotated constraint goes in place of the one that is processed, which is then processed once
more, so that the query is consolidated in the end. -/
theorem settles_state_annotatedFirst : ∃ q plan st v as a k found p last,
    annotatedFirst.build = .ok q ∧ ofQuery Rule.builtIn .standard q = .ok plan ∧
    plan.graph.state? ⟨1⟩ = some st ∧
    Rule.processConstraint.applications st.query v = .ok as ∧ a ∈ as ∧ a.constraint = some k ∧
    k.bounds = none ∧ Rule.processConstraint.apply st.query a = .ok ⟨p,v⟩ ∧
    st.query.Settles p k found ∧ found.bounds ≠ none ∧ plan.graph.state? ⟨3⟩ = some last ∧
    last.query.isConsolidated = true ∧ Constraint.Settleable q.constraintsByNumber := by
  obtain ⟨q,plan,hq,-,hplan,hc⟩ := exists_planned (d:=annotatedFirst) (c:=fun _ plan =>
      ((plan.graph.state? ⟨1⟩).any fun st =>
        (Rule.processConstraint.applications st.query ⟨1⟩).toOption.any fun as =>
          as.any fun a => a.constraint.any fun k => k.sameRelation k &&
            (Query.takeFirst k.sameRelation st.query.constraintsByNumber).any fun x =>
              x.1.bounds.isSome) &&
      (plan.graph.state? ⟨3⟩).any fun st => st.query.isConsolidated) (by
    rw [Description.build,Description.addAll_flat rfl]
    decide +kernel)
  obtain ⟨hmiddle,hlast⟩ := Bool.and_eq_true_iff.mp hc
  obtain ⟨st,hst,hmiddle⟩ := Option.any_eq_true _ _ |>.mp hmiddle
  obtain ⟨as,has,hmiddle⟩ := Option.any_eq_true _ _ |>.mp hmiddle
  obtain ⟨a,ha,hmiddle⟩ := List.any_eq_true.mp hmiddle
  obtain ⟨k,hk,hmiddle⟩ := Option.any_eq_true _ _ |>.mp hmiddle
  obtain ⟨hself,hfirst⟩ := Bool.and_eq_true_iff.mp hmiddle
  obtain ⟨last,hend,hconsolidated⟩ := Option.any_eq_true _ _ |>.mp hlast
  obtain ⟨l,hl,-,hb,-,hsettles⟩ :=
    (settles_state hq (fun _ hr => hr) hplan hst).1 ⟨1⟩ as (ok_of_toOption has) a ha
  cases hk.symm.trans hl
  obtain ⟨found,p,happly,hsettles,-⟩ := hsettles hself
  rw [hsettles.first,Option.any_some] at hfirst
  refine ⟨q,plan,st,⟨1⟩,as,a,k,found,p,last,hq,hplan,hst,ok_of_toOption has,ha,hk,hb,happly,
    hsettles,?_,hend,hconsolidated,
    (settles_state hq (fun _ hr => hr) hplan hend).2 hconsolidated⟩
  exact Option.isSome_iff_ne_none.mp hfirst

end Plan

end GraphPattern
