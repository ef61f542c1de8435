import GraphPattern.Proofs.Rule.Applied
import GraphPattern.Proofs.Rule.Declared
import GraphPattern.Proofs.Rule.Effort

/-!
# Queries that can be solved

A query can be solved if reductions lead from it to a consolidated one. What holds of consolidated
queries and goes back over every reduction holds of it.
-/

namespace GraphPattern.Query

open Relation Rule

/-- A reduction leads from the first query to the second one. -/
def ReducesTo (q q' : Query) : Prop := ∃ rule a out, Reduction q rule a q' out

/-- Reductions lead from the query to a consolidated one. -/
def Solvable (q : Query) : Prop := ∃ u, ReflTransGen ReducesTo q u ∧ u.isConsolidated = true

variable {q q' u : Query}

theorem ReducesTo.wellFormed (h : q.WellFormed) (hr : q.ReducesTo q') : q'.WellFormed := by
  obtain ⟨rule,a,out,hr⟩ := hr
  exact (hr.applied h).2

theorem wellFormed_of_reflTransGen (h : q.WellFormed) (hr : ReflTransGen ReducesTo q u) :
    u.WellFormed := by
  induction hr with
  | refl => exact h
  | tail _ hr ih => exact hr.wellFormed ih

theorem Solvable.head (hr : q.ReducesTo q') (h : q'.Solvable) : q.Solvable := by
  obtain ⟨u,hu,hc⟩ := h
  exact ⟨u,.head hr hu,hc⟩

theorem Solvable.of_reflTransGen (hr : ReflTransGen ReducesTo q q') (h : q'.Solvable) :
    q.Solvable := by
  obtain ⟨u,hu,hc⟩ := h
  exact ⟨u,hr.trans hu,hc⟩

/-- What holds of consolidated queries and goes back over every reduction holds of queries that can
be solved. -/
theorem Solvable.back {P : Query → Prop} (h : q.WellFormed) (hs : q.Solvable)
    (hgoal : ∀ {u : Query}, u.WellFormed → u.isConsolidated = true → P u)
    (hstep : ∀ {q q' : Query} {rule : Rule} {a : Application} {out : ItemId}, q.WellFormed →
      Reduction q rule a q' out → P q' → P q) : P q := by
  obtain ⟨u,hu,hc⟩ := hs
  induction hu using ReflTransGen.head_induction_on with
  | refl => exact hgoal h hc
  | head hr _ ih =>
    have hq := hr.wellFormed h
    obtain ⟨rule,a,out,hr⟩ := hr
    exact hstep h hr (ih hq)

/-- In a consolidated query there is nothing but the root with one settled vertex. -/
theorem eq_of_consolidated (h : q.WellFormed) (hc : q.isConsolidated = true) :
    ∃ v x, q.item? v = some x ∧ Settled x ∧ (∀ i y, q.item? i = some y → i = v) ∧
      (∀ c C, q.container? c = some C → c = .root) ∧ ∀ c, q.declared c = [] := by
  obtain ⟨R,v,x,hR,hv,he,hs,hk,hx,hset⟩ := consolidated_iff.mp hc
  have hroot : ∀ c C, q.container? c = some C → c = .root := by
    intro c C hC
    rcases ReflTransGen.cases_head (h.nested.reachable hC) with hc|⟨d,⟨R',hR',hd⟩,-⟩
    · exact hc.symm
    · rw [hR] at hR'
      cases hR'
      rw [hs] at hd
      cases hd
  refine ⟨v,x,hx,hset,fun i y hy => ?_,hroot,fun c => ?_⟩
  · obtain ⟨c,C,-,hC,hm⟩ := h.owned.owner hy
    rw [hroot c C hC,hR] at hC
    cases hC
    cases hyv : y.isVertex <;> rw [hyv] at hm
    · change i ∈ R.edges at hm
      rw [he] at hm
      cases hm
    · change i ∈ R.vertices at hm
      rw [hv] at hm
      exact List.mem_singleton.mp hm
  · cases hC : q.container? c with
    | none => rw [declared,hC]; rfl
    | some C =>
      rw [hroot c C hC,declared_of_some hR,hk]

/-- Every constraint of a query that can be solved is like itself. -/
theorem Solvable.sameRelation_self (h : q.WellFormed) (hs : q.Solvable) {c : ContainerId}
    {k : Constraint} (hk : k ∈ q.declared c) : k.sameRelation k = true := by
  refine hs.back (P:=fun q => ∀ c, ∀ k ∈ q.declared c, k.sameRelation k = true) h ?_ ?_ c k hk
  · intro u hu hc c k hk
    obtain ⟨-,-,-,-,-,-,hnone⟩ := eq_of_consolidated hu hc
    rw [hnone] at hk
    cases hk
  · intro q q' rule a out hq hr ih c k hk
    rcases hr.declared_cases hq hk with hk|⟨l,-,-,hl⟩
    · exact ih c k hk
    · exact Constraint.sameRelation_self hl

end GraphPattern.Query
