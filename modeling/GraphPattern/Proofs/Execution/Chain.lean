import GraphPattern.Proofs.Execution.Result
import GraphPattern.Proofs.Plan
import GraphPattern.Proofs.Search.Path
import GraphPattern.Proofs.Validation

/-!
# The steps of a plan as a chain of reductions

A plan for a query that validation accepts reduces the query to one that is consolidated. From one
step to the next the query keeps its content, but not the numbers of its items.
-/

namespace GraphPattern

open Rule

/-- Queries that a user writes and that validation accepts can be replayed. -/
theorem Query.Written.replayable {q : Query} (h : q.Written) (hc : q.Comparable)
    (hv : q.violations = []) : q.Replayable where
  plannable := h.plannable hc
  limited hx hm := by
    rw [(h.item hx).unmarked] at hm
    cases hm
  decided hC hk := ⟨binary_of_violations h.wellFormed hv hC hk,(hc _ _ _ hC hk).item⟩

/-- Every state of a search from a query that can be replayed is such a query. -/
theorem SearchGraph.Faithful.replayable {g : SearchGraph} {rules : List Rule} {q₀ : Query}
    (h : g.Faithful rules q₀) (hr : AllBuiltIn rules) (h₀ : q₀.Replayable) {s : StateId}
    {st : SearchState} (hs : g.state? s = some st) : st.query.Replayable := by
  refine h.preserved (P:=Query.Replayable) h₀ ?_ hs
  intro x q q' hq hx
  obtain ⟨out,hred,hq'⟩ := SearchGraph.reduction_of_carries hr hq.plannable hx
  exact hred.replayable hq hq'

/-- What a step of a search does is a reduction, and its result is the vertex that comes out. -/
theorem SearchGraph.named_of_carries {rules : List Rule} (hr : AllBuiltIn rules) {x : SearchStep}
    {q q' : Query} (h : q.Plannable) (hx : x.Carries rules q q') : ∃ out y,
      Reduction q x.rule x.application q' out ∧ q'.item? out = some y ∧
        x.result = ⟨y.joinedName,y.names⟩ ∧ q'.Plannable := by
  obtain ⟨out,hred,hq'⟩ := reduction_of_carries hr h hx
  obtain ⟨out',happ,hres⟩ := hx.applied
  rw [(hred.carriedOut h).1] at happ
  cases happ
  obtain ⟨y,hy,-⟩ := (hred.changes h.wellFormed).out
  rw [Reduced.result,Query.item_of_some hy] at hres
  exact ⟨out,y,hred,hy,(Except.ok.inj hres).symm,hq'⟩

/-- The steps reduce a query to another one. Between two steps the query keeps its content. -/
inductive Chain : Query → List PlanStep → Query → Prop
  /-- No step is taken. -/
  | nil {q : Query} (able : q.Replayable) : Chain q [] q
  /-- A step is taken first. -/
  | cons {q q' t u : Query} {x : SearchStep} {out : ItemId} {y : Item} {steps : List PlanStep}
    (able : q.Replayable) (reduced : Reduction q x.rule x.application q' out)
    (live : q'.item? out = some y) (named : x.result = ⟨y.joinedName,y.names⟩)
    (kept : q'.content = t.content) (rest : Chain t steps u) : Chain q (⟨q,x⟩ :: steps) u

theorem Chain.carried {q u : Query} {steps : List PlanStep} (h : Chain q steps u) :
    ∀ s ∈ steps, s.Carried := by
  induction h with
  | nil => exact fun s hs => absurd hs List.not_mem_nil
  | cons able reduced live named kept rest ih =>
    intro s hs
    rcases List.mem_cons.mp hs with rfl|hs
    · exact ⟨able,_,_,_,reduced,live,named⟩
    · exact ih s hs

/-- A path in the graph of a search is a chain of reductions. -/
theorem SearchGraph.Faithful.chain {g : SearchGraph} {rules : List Rule} {q₀ : Query}
    (h : g.Faithful rules q₀) (hr : AllBuiltIn rules) (h₀ : q₀.Replayable) {s t : StateId}
    {es : List StepId} (hp : g.Path s es t) {a : SearchState} (ha : g.state? s = some a) :
    ∃ b, g.state? t = some b ∧ Chain a.query (es.filterMap fun e => do
      let step ← g.step? e
      let state ← g.state? step.source
      return ⟨state.query,step⟩) b.query := by
  induction hp generalizing a with
  | nil s => exact ⟨a,ha,.nil (h.replayable hr h₀ ha)⟩
  | @cons s t e es x found source rest ih =>
    obtain ⟨a',c,q',ha',hc,hx,hkept⟩ := h.step found
    obtain ⟨b,hb,hchain⟩ := ih hc
    have hq := h.replayable hr h₀ ha'
    rw [source,ha] at ha'
    cases ha'
    obtain ⟨out,y,hred,hy,hnamed,-⟩ := named_of_carries hr hq.plannable hx
    refine ⟨b,hb,?_⟩
    rw [List.filterMap_cons]
    simp only [found,Option.bind_eq_bind,Option.bind_some,source,ha,Option.pure_def]
    exact .cons hq hred hy hnamed hkept hchain

namespace Plan

/-- The steps of a plan for a query that validation accepts reduce it to a consolidated one. -/
theorem chain {rules : List Rule} {config : SearchConfig} {q : Query} {plan : Plan}
    (hr : AllBuiltIn rules) (h : q.Written) (hc : q.Comparable) (hv : q.violations = [])
    (hp : ofQuery rules config q = .ok plan) :
    (plan.graph.state? .start).map SearchState.query = some q ∧
      ∀ es, plan.path = some es → ∃ u, Chain q plan.steps u ∧ u.isConsolidated = true := by
  obtain ⟨outcome,p,hrun,hf⟩ := Search.run_ok hr config h hc
  rw [ofQuery_of_run hrun] at hp
  cases hp
  obtain ⟨st,hst,rfl⟩ := hf.start
  refine ⟨by rw [show (ofSearch outcome p).graph = p.graph from rfl,hst]; rfl,fun es hes => ?_⟩
  have hpath : p.graph.shortestPath? .start = some es := by
    cases outcome with
    | capped => cases hes
    | solved | exhausted => exact hes
  obtain ⟨t,hp,hgoal⟩ := SearchGraph.path_of_shortestPath?
    (fun he hx => hf.source_of_out he hx) hpath
  obtain ⟨b,hb,hchain⟩ := hf.chain hr (h.replayable hc hv) hp hst
  refine ⟨b.query,?_,?_⟩
  · rw [steps,hes]
    exact hchain
  · rw [SearchGraph.isGoal,hb] at hgoal
    exact hgoal

end Plan

end GraphPattern
