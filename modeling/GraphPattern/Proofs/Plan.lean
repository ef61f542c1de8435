import GraphPattern.Plan
import GraphPattern.Proofs.Description.Reader
import GraphPattern.Proofs.Search.Total

/-!
# Planning answers

Planning a query that was built from a description answers with a plan or with the knowledge that
there is none. It never fails, whatever rules of the library it is given, in whatever order and
however often, and however the search is configured.
-/

namespace GraphPattern

/-- What a written query weighs. -/
theorem Query.Written.weight_eq {q : Query} (h : q.Written) : q.weight =
    (q.vertices .whole).length + 2 * (q.edges .whole).length + (q.subqueries .whole).length +
      (q.constraints .whole).length + 1 :=
  weight_plain h.wellFormed fun hx => ⟨(h.item hx).plain,(h.item hx).unmarked⟩

namespace Search

variable {rules : List Rule} {q : Query}

/-- A search from a written query answers, and its graph is faithful. -/
theorem run_ok (hr : Rule.AllBuiltIn rules) (config : SearchConfig) (h : q.Written)
    (hc : q.Comparable) :
    ∃ outcome p, run rules config q = .ok (outcome,p) ∧ p.graph.Faithful rules q := by
  refine run_of_deepEnough hr (h.plannable hc).reliable ?_
  rw [DeepEnough,depthLimit]
  cases config.maxStates with
  | none => exact Nat.le_of_eq h.weight_eq
  | some most =>
    change 0 < most+2 ∧ most+3 ≤ most+2+1
    omega

end Search

namespace Plan

theorem ofQuery_of_run {rules : List Rule} {config : SearchConfig} {q : Query}
    {outcome : SearchOutcome} {p : SearchProgress}
    (h : Search.run rules config q = .ok (outcome,p)) :
    ofQuery rules config q = .ok (ofSearch outcome p) := by
  rw [Search.run] at h
  rw [ofQuery,toDepth,h]
  rfl

/-- A plan is what is left of a search. -/
theorem exists_of_toDepth {rules : List Rule} {config : SearchConfig} {depth : Nat} {q : Query}
    {plan : Plan} (h : toDepth rules config depth q = .ok plan) :
    ∃ o p, Search.expand rules config depth .start ⟨.ofQuery q,.zero⟩ = .ok o p ∧
      plan = ofSearch o p := by
  rw [toDepth,Search.runTo,EStateM.run] at h
  cases hrun : Search.expand rules config depth .start ⟨.ofQuery q,.zero⟩ with
  | error e p =>
    rw [hrun] at h
    cases h
  | ok o p =>
    rw [hrun] at h
    cases h
    exact ⟨o,p,rfl,rfl⟩

/-- Planning a written query answers, and the graph of the plan is faithful. -/
theorem ofQuery_ok {rules : List Rule} (hr : Rule.AllBuiltIn rules) (config : SearchConfig)
    {q : Query} (h : q.Written) (hc : q.Comparable) :
    ∃ plan, ofQuery rules config q = .ok plan ∧ plan.graph.Faithful rules q := by
  obtain ⟨outcome,p,hrun,hp⟩ := Search.run_ok hr config h hc
  exact ⟨ofSearch outcome p,ofQuery_of_run hrun,hp⟩

end Plan

end GraphPattern
