import GraphPattern.Proofs.Constraint
import GraphPattern.Proofs.Rule.Changes

/-!
# Constraints under reductions

Processing a constraint removes the first one that states the same relation, container by container
in the order of their numbers. No other reduction touches a constraint. So the constraints of one
relation go in an order that no search can choose, and if all of them go, each of them was removed
on account of one like it.
-/

namespace GraphPattern

namespace Arena

/-- Values stand in the order of their numbers. -/
theorem pairwise_indexed {α : Type} (s : Arena α) : s.indexed.Pairwise fun a b => a.1<b.1 := by
  rw [indexed,List.pairwise_filterMap]
  have hall : s.slots.zipIdx.Pairwise fun a b => a.2<b.2 := by
    rw [List.pairwise_iff_getElem]
    intro i j hi hj hij
    rw [List.getElem_zipIdx,List.getElem_zipIdx]
    omega
  refine hall.imp fun {a b} hab x hx y hy => ?_
  obtain ⟨_,-,rfl⟩ := Option.map_eq_some_iff.mp hx
  obtain ⟨_,-,rfl⟩ := Option.map_eq_some_iff.mp hy
  exact hab

end Arena

namespace Query

open Step

/-- The constraints that a container declares. -/
def declared (q : Query) (c : ContainerId) : List Constraint :=
  ((q.container? c).map Container.constraints).getD []

variable {q q' : Query} {k found : Constraint} {c : ContainerId} {before after : List Constraint}

theorem declared_of_some {C : Container} (hC : q.container? c = some C) :
    q.declared c = C.constraints := by
  rw [declared,hC]
  rfl

theorem mem_declared : k ∈ q.declared c ↔ ∃ C, q.container? c = some C ∧ k ∈ C.constraints := by
  rw [declared]
  cases q.container? c <;> simp

/-- The first constraint like a given one is gone, and nothing else is declared otherwise. -/
structure Drops (q q' : Query) (k found : Constraint) (c : ContainerId)
    (before after : List Constraint) : Prop where
  /-- It stood here. -/
  here : q.declared c = before ++ found :: after
  /-- The others are left. -/
  rest : q'.declared c = before ++ after
  /-- It is like the given one. -/
  like : k.sameRelation found = true
  /-- Nothing before it is. -/
  unlike : ∀ j ∈ before, k.sameRelation j = false
  /-- Neither is anything in a container with a smaller number. -/
  earlier : ∀ d, d.index<c.index → ∀ j ∈ q.declared d, k.sameRelation j = false
  /-- Other containers declare what they declared. -/
  other : ∀ d, d ≠ c → q'.declared d = q.declared d

/-- The container in which a constraint is found is the first one that declares such a one. -/
theorem earlier_of_removeConstraint {D : Container} {rest : List Constraint}
    (hrun : removeConstraint k q =
      .ok found (q.mapContainer c fun _ => { D with constraints := rest })) :
    ∀ d, d.index<c.index → ∀ j ∈ q.declared d, k.sameRelation j = false := by
  obtain ⟨removed,t,hstep,hanswer⟩ := bind_eq_ok.mp hrun
  simp only [updateFirst,bind_apply,get_apply] at hstep
  cases hf : q.containers.indexed.findSome? fun e =>
      ((takeFirst k.sameRelation e.2.constraints).map fun x =>
        (x.1,{ e.2 with constraints := x.2 })).map (e.1,·) with
  | none =>
    rw [hf] at hstep
    cases hstep
    cases hanswer
  | some answer =>
    obtain ⟨index,k',C'⟩ := answer
    rw [hf] at hstep
    simp only [bind_apply,set_apply,pure_apply] at hstep
    cases hstep
    simp only [pure_apply,EStateM.Result.ok.injEq] at hanswer
    obtain ⟨earlier,⟨i,C⟩,later,hsplit,hC,hnone⟩ := List.findSome?_eq_some_iff.mp hf
    obtain ⟨⟨x,C₁⟩,hx,hpair⟩ := Option.map_eq_some_iff.mp hC
    cases hpair
    obtain ⟨⟨l,rest'⟩,hl,hpair⟩ := Option.map_eq_some_iff.mp hx
    cases hpair
    have hCi : q.container? ⟨i⟩ = some C :=
      Arena.mem_indexed.mp (by rw [hsplit]; exact List.mem_append_right _ List.mem_cons_self)
    -- The container that was changed is shorter, so it is the one in question.
    have hic : (⟨i⟩ : ContainerId) = c := by
      by_contra hne
      have hleft : (q.mapContainer ⟨i⟩ fun _ => { C with constraints := rest' }).container? ⟨i⟩ =
          some { C with constraints := rest' } := by
        rw [container?_mapContainer,if_pos rfl,hCi]
        rfl
      have hright : (q.mapContainer c fun _ => { D with constraints := rest }).container? ⟨i⟩ =
          some C := by
        rw [container?_mapContainer,if_neg hne,hCi]
      have hsame : C.constraints = rest' :=
        congrArg Container.constraints (Option.some.inj
          (hright.symm.trans ((congrArg (fun t => t.container? ⟨i⟩) hanswer.2).symm.trans hleft)))
      obtain ⟨b,a,hb,ha,-⟩ := takeFirst_first hl
      have hlen := congrArg List.length (hb.symm.trans (hsame.trans ha))
      simp only [List.length_append,List.length_cons] at hlen
      omega
    intro d hd j hj
    obtain ⟨E,hE,hj⟩ := mem_declared.mp hj
    have hm : (d.index,E) ∈ earlier := by
      have hin : (d.index,E) ∈ q.containers.indexed := Arena.mem_indexed.mpr hE
      have hsorted := q.containers.pairwise_indexed
      rw [hsplit] at hin hsorted
      rcases List.mem_append.mp hin with hin|hin
      · exact hin
      · have hlt : i ≤ d.index := by
          rcases List.mem_cons.mp hin with hin|hin
          · exact Nat.le_of_eq (congrArg Prod.fst hin).symm
          · exact Nat.le_of_lt (List.rel_of_pairwise_cons
              (List.pairwise_append.mp hsorted).2.1 hin)
        rw [← hic] at hd
        exact absurd hd (Nat.not_lt_of_le hlt)
    exact takeFirst_none (Option.map_eq_none_iff.mp (Option.map_eq_none_iff.mp (hnone _ hm))) j hj

/-- What removing a constraint leaves. -/
theorem drops_of_removeConstraint {D : Container} {rest : List Constraint}
    (hD : q.container? c = some D)
    (h : takeFirst k.sameRelation D.constraints = some (found,rest))
    (hrun : removeConstraint k q =
      .ok found (q.mapContainer c fun _ => { D with constraints := rest })) :
    ∃ before after, q.Drops (q.mapContainer c fun _ => { D with constraints := rest }) k found c
      before after := by
  obtain ⟨before,after,hhere,hrest,hlike,hunlike⟩ := takeFirst_first h
  have hleft : ∀ d, (q.mapContainer c fun _ => { D with constraints := rest }).declared d =
      if d = c then rest else q.declared d := by
    intro d
    rw [declared,container?_mapContainer]
    split
    · rename_i hd
      rw [hd,hD]
      rfl
    · rfl
  refine ⟨before,after,?_,?_,hlike,hunlike,earlier_of_removeConstraint hrun,
    fun d hd => by rw [hleft,if_neg hd]⟩
  · rw [declared_of_some hD,hhere]
  · rw [hleft,if_pos rfl,hrest]

end Query

namespace Rule

open Query

variable {q q' : Query} {rule : Rule} {a : Application} {out : ItemId}

/-- The constraint that is processed: it is declared, it is not annotated, and a settled vertex has
the names of its items. -/
structure Processed (q : Query) (v : ItemId) (k : Constraint) : Prop where
  /-- Some container declares it. -/
  declared : ∃ c, k ∈ q.declared c
  /-- It is not annotated. -/
  bounds : k.bounds = none
  /-- The vertex is settled and has the names. -/
  inside : ∃ x, q.item? v = some x ∧ Settled x ∧ ∀ n ∈ k.itemNames, n ∈ x.names

/-- A reduction touches no constraint, or it drops the first one that is like one it is about. -/
theorem Reduction.declared (h : q.WellFormed) (hr : Reduction q rule a q' out) :
    (a.constraint = none ∧ ∀ c, q'.declared c = q.declared c) ∨ ∃ k found c before after,
      a.constraint = some k ∧ Processed q out k ∧ q.Drops q' k found c before after := by
  have hsame : (∀ c, (q'.container? c).map Container.constraints =
      (q.container? c).map Container.constraints) → ∀ c, q'.declared c = q.declared c := by
    intro hc c
    rw [Query.declared,hc,Query.declared]
  cases hr with
  | @getVertex v x edges c live kind bounds listed owner unmarked =>
    refine .inl ⟨rfl,hsame fun d => ?_⟩
    rw [container?_withReplaced]
    split
    · rw [Option.map_map]
      rfl
    · rfl
  | @absorbSelfLoop _ e x y ends c live settled edge ended loop owner bounds unmarked =>
    refine .inl ⟨rfl,hsame fun d => ?_⟩
    rw [container?_mapItem,container?_withoutEdge h edge owner,Option.map_map]
    rfl
  | @collapseEdge _ e u x y w ends edges c d able settled settled' unmarked together =>
    refine .inl ⟨rfl,hsame fun d => ?_⟩
    rw [container?_mapItem,(able.leaves h).container,Option.map_map]
    rfl
  | @absorbAnnotatedVertex _ e u x y w ends c d a marker able settled bounds annotated unmarked
      unmarked' together marking marked =>
    refine .inl ⟨rfl,hsame fun s => ?_⟩
    rw [container?_mapItem,(able.leaves_alone h).container,Option.map_map]
    rfl
  | @applyUpperLimit _ x marker live kind bounds marked =>
    exact .inl ⟨rfl,fun c => by rw [Query.declared,container?_mapItem]; rfl⟩
  | @eliminateSubquery _ x s p S live settled owner inner parent alone =>
    obtain ⟨hne,hss,hps⟩ := h.nested.around inner parent
    refine .inl ⟨rfl,fun c => ?_⟩
    rw [Query.declared,container?_mapItem,container?_flattened c hne hss hps]
    split
    · rename_i hc
      rw [hc,declared_of_some inner,alone.2.2.2]
      rfl
    · rw [Query.declared]
      cases q.container? c with
      | none => rfl
      | some C =>
        rw [Option.map_some,Option.map_some,Option.map_some,Option.getD_some,Option.getD_some]
        split
        · change C.constraints ++ S.constraints = C.constraints
          rw [alone.2.2.2,List.append_nil]
        · split
          · cases C with
            | mk kind => cases kind <;> rfl
          · rfl
  | @processConstraint _ x k found c C rest live settled declared bounds inside owner first carried =>
    obtain ⟨before,after,hdrops⟩ := drops_of_removeConstraint owner first carried
    obtain ⟨d,D,hd,hk⟩ := exists_container_of_mem declared
    exact .inr ⟨k,found,c,before,after,rfl,
      ⟨⟨d,mem_declared.mpr ⟨D,hd,hk⟩⟩,bounds,x,live,settled,inside⟩,hdrops⟩

/-- A constraint stays, or it is like the one that is processed. -/
theorem Reduction.declared_cases (h : q.WellFormed) (hr : Reduction q rule a q' out) {k : Constraint}
    {c : ContainerId} (hk : k ∈ q.declared c) :
    k ∈ q'.declared c ∨
      ∃ l, a.constraint = some l ∧ Processed q out l ∧ l.sameRelation k = true := by
  rcases hr.declared h with ⟨-,hsame⟩|⟨l,found,d,before,after,ha,hl,hdrops⟩
  · exact .inl (by rw [hsame]; exact hk)
  · by_cases hd : c = d
    · rw [hd] at hk ⊢
      rw [hdrops.here] at hk
      rw [hdrops.rest]
      rcases List.mem_append.mp hk with hk|hk
      · exact .inl (List.mem_append_left _ hk)
      · rcases List.mem_cons.mp hk with rfl|hk
        · exact .inr ⟨l,ha,hl,hdrops.like⟩
        · exact .inl (List.mem_append_right _ hk)
    · exact .inl (by rw [hdrops.other c hd]; exact hk)

end Rule

end GraphPattern
