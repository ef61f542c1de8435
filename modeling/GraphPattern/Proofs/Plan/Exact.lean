import GraphPattern.Proofs.Plan
import GraphPattern.Proofs.Search.Solved

/-!
# What a plan consists of

The steps of a plan are reductions, each of which starts from the very query that the step before it
has led to. There are as many of them as the query takes effort, and they do not depend on whether
the search stops at its first goal.
-/

namespace GraphPattern

/-- The steps are carried out one after another: each starts from the query that came out of the one
before it. -/
def PlanStep.Lead : Query → List PlanStep → Query → Prop
  | q, [], final => final = q
  | q, s :: steps, final => s.before = q ∧
    ∃ r, s.step.rule.apply q s.step.application = .ok r ∧ r.result = .ok s.step.result ∧
      Lead r.query steps final

namespace SearchGraph

variable {rules : List Rule} {q₀ : Query} {g : SearchGraph} {s : StateId} {st : SearchState}
  {A F : StateId → Prop} {es : List StepId}

/-- A step with the query that it starts from. -/
def planStep? (g : SearchGraph) (e : StepId) : Option PlanStep := do
  let step ← g.step? e
  let state ← g.state? step.source
  return ⟨state.query,step⟩

/-- The state that some steps lead to from another one. -/
def last? (g : SearchGraph) (s : StateId) (es : List StepId) : Option StateId :=
  match es.getLast? with
  | some e => g.target? e
  | none => some s

theorem last?_cons {e : StepId} {x : SearchStep} (he : g.step? e = some x) :
    g.last? s (e :: es) = g.last? x.target es := by
  cases es with
  | nil =>
    change g.target? e = some x.target
    rw [target?,he]
    rfl
  | cons f es =>
    rw [last?,last?,List.getLast?_cons_cons]
    cases hl : (f :: es).getLast? with
    | none => exact absurd (List.getLast?_eq_none_iff.mp hl) (List.cons_ne_nil f es)
    | some l => rfl

/-- The state that a step leads to holds the query that the rule answers. -/
def Exact (g : SearchGraph) (s : PlanStep) : Prop :=
  ∃ t r, g.state? s.step.target = some t ∧
    s.step.rule.apply s.before s.step.application = .ok r ∧ t.query = r.query

/-- The steps to the first goal are carried out one after another. -/
theorem Leads.replays (hl : g.Leads rules F s es) (hs : g.state? s = some st) :
    (∃ t u, g.last? s es = some t ∧ g.state? t = some u ∧ u.query.isConsolidated = true ∧
      PlanStep.Lead st.query (es.filterMap g.planStep?) u.query) ∧
    (es.filterMap g.planStep?).length = es.length ∧
    ∀ x ∈ es.filterMap g.planStep?, g.Exact x := by
  induction hl generalizing st with
  | @goal s hgoal =>
    rw [isGoal,hs,Option.any_some] at hgoal
    rw [List.filterMap_nil]
    refine ⟨⟨s,st,rfl,hs,hgoal,rfl⟩,rfl,fun x hx => absurd hx List.not_mem_nil⟩
  | @step s e x a b before after es aimless out found source idle here there carries later rest ih =>
    rw [hs] at here
    cases here
    obtain ⟨⟨t,u,hlast,hu,hcons,hreplay⟩,hlen,hexact⟩ := ih there
    obtain ⟨out,happ,hres⟩ := carries.applied
    have hstep : g.planStep? e = some ⟨a.query,x⟩ := by
      rw [planStep?,found]
      simp only [Option.bind_eq_bind,Option.bind_some,source,hs,Option.pure_def]
    rw [List.filterMap_cons_some hstep]
    refine ⟨⟨t,u,(last?_cons found).trans hlast,hu,hcons,rfl,_,happ,hres,hreplay⟩,?_,?_⟩
    · rw [List.length_cons,List.length_cons,hlen]
    · intro y hy
      rcases List.mem_cons.mp hy with rfl|hy
      · exact ⟨b,_,there,happ,rfl⟩
      · exact hexact y hy

/-- There are as many steps to the first goal as the query takes effort. -/
theorem Leads.effort (hl : g.Leads rules F s es) (h : g.Faithful rules q₀)
    (hr : Rule.AllBuiltIn rules) (h₀ : q₀.Reducible) (hs : g.state? s = some st) :
    st.query.gauged .effort = es.length+1 := by
  induction hl generalizing st with
  | goal hgoal =>
    rw [isGoal,hs,Option.any_some] at hgoal
    exact Rule.effort_consolidated (h.traced hr h₀ hs).1.wellFormed hgoal
  | @step s e x a b before after es aimless out found source idle here there carries later rest ih =>
    rw [hs] at here
    cases here
    obtain ⟨hq,-⟩ := h.traced hr h₀ hs
    obtain ⟨out,hred,-⟩ := reducible_of_carries hr hq carries
    have hdrop := hred.effort_eq hq.wellFormed
    have hrest := ih there
    rw [List.length_cons]
    omega

theorem planStep?_grows {h : SearchGraph} {e : StepId} {x : PlanStep} (hg : g.Grows h)
    (he : g.planStep? e = some x) : h.planStep? e = some x := by
  simp only [planStep?,Option.bind_eq_bind,Option.bind_eq_some_iff,Option.pure_def] at he ⊢
  obtain ⟨step,hstep,state,hstate,hx⟩ := he
  obtain ⟨state',hstate',hq⟩ := hg.state hstate
  exact ⟨step,hg.step hstep,state',hstate',by rw [hq]; exact hx⟩

/-- The steps to the first goal are the same in every graph that has grown out of the graph. -/
theorem Leads.planSteps_grows {h : SearchGraph} (hl : g.Leads rules F s es) (hg : g.Grows h) :
    es.filterMap h.planStep? = es.filterMap g.planStep? := by
  induction hl with
  | goal => rfl
  | @step s e x a b before after es aimless out found source idle here there carries later rest ih =>
    have hstep : g.planStep? e = some ⟨a.query,x⟩ := by
      rw [planStep?,found]
      simp only [Option.bind_eq_bind,Option.bind_some,source,here,Option.pure_def]
    rw [List.filterMap_cons_some hstep,List.filterMap_cons_some (planStep?_grows hg hstep),ih]

end SearchGraph

namespace Plan

open SearchGraph

variable {rules : List Rule} {config : SearchConfig} {q : Query} {plan : Plan}

/-- A plan comes from a search. -/
theorem run_of_ofQuery (h : ofQuery rules config q = .ok plan) :
    ∃ o p, Search.run rules config q = .ok (o,p) ∧ plan = ofSearch o p := by
  cases hrun : Search.run rules config q with
  | error e =>
    rw [Search.run] at hrun
    rw [ofQuery,toDepth,hrun] at h
    cases h
  | ok answer =>
    obtain ⟨o,p⟩ := answer
    rw [ofQuery_of_run hrun] at h
    exact ⟨o,p,rfl,(Except.ok.inj h).symm⟩

/-- Whether a plan is solved, and along which steps, the search tells. -/
theorem path_of_run {o : SearchOutcome} {p : SearchProgress} (hr : Rule.AllBuiltIn rules)
    (h₀ : q.Reducible) (h : Search.run rules config q = .ok (o,p)) :
    (o ≠ .solved ∧ (ofSearch o p).path = none) ∨ (o = .solved ∧ ∃ F es,
      p.graph.First rules (· = .start) F .start es ∧ (ofSearch o p).path = some es) := by
  have hk := Search.run_kept h
  obtain ⟨st,hst,-⟩ := hk.faithful.start
  cases Search.run_ended h with
  | capped => exact .inl ⟨nofun,rfl⟩
  | exhausted shut => exact .inl ⟨nofun,shut.shortestPath? ⟨st,hst⟩⟩
  | solved first =>
    exact .inr ⟨rfl,_,_,first,first.shortestPath? (hk.faithful.even hr h₀)⟩

/-- A solved plan consists of the steps to the first goal of its search. -/
theorem first_of_isSolved (hr : Rule.AllBuiltIn rules) (h₀ : q.Reducible)
    (h : ofQuery rules config q = .ok plan) (hs : plan.isSolved = true) :
    plan.graph.Faithful rules q ∧ ∃ F es, plan.graph.First rules (· = .start) F .start es ∧
      plan.path = some es := by
  obtain ⟨o,p,hrun,rfl⟩ := run_of_ofQuery h
  refine ⟨(Search.run_kept hrun).faithful,?_⟩
  rcases path_of_run hr h₀ hrun with ⟨-,hnone⟩|⟨-,hsome⟩
  · rw [isSolved,hnone] at hs
    cases hs
  · exact hsome

theorem steps_eq {es : List StepId} (h : plan.path = some es) :
    plan.steps = es.filterMap plan.graph.planStep? := by
  rw [steps,h]
  rfl

theorem finalQuery?_eq {es : List StepId} (h : plan.path = some es) : plan.finalQuery? =
    (plan.graph.last? .start es).bind fun t => (plan.graph.state? t).map SearchState.query := by
  rw [finalQuery?,h,last?]
  cases hlast : es.getLast? with
  | none =>
    simp only [Option.bind_eq_bind,Option.bind_some,hlast]
    cases plan.graph.state? .start <;> rfl
  | some e =>
    simp only [Option.bind_eq_bind,Option.bind_some,hlast]
    cases plan.graph.target? e with
    | none => rfl
    | some t =>
      rw [Option.bind_some,Option.bind_some]
      cases plan.graph.state? t <;> rfl

/-- A vertex and an edge to another one that occurs at most twice, as described. -/
def limited : Description :=
  ⟨"q","",⟨[⟨"A",none,none⟩,⟨"B",none,some ⟨none,some 2⟩⟩],
    [⟨"e","A","B",false,none,some ⟨none,some 2⟩⟩],[],[],[]⟩,[]⟩

/-- Both searches solve it, in three steps. -/
theorem limited_solved (exhaustive : Bool) : ∃ q plan, limited.build = .ok q ∧
    ofQuery Rule.builtIn ⟨exhaustive,none⟩ q = .ok plan ∧ plan.isSolved = true ∧
      plan.steps.length = 3 := by
  have heval : ((limited.build.toOption.bind fun q =>
      (ofQuery Rule.builtIn ⟨exhaustive,none⟩ q).toOption).any fun plan =>
        plan.isSolved && plan.steps.length = 3) = true := by
    rw [Description.build,Description.addAll_flat rfl]
    cases exhaustive <;> decide +kernel
  cases hq : limited.build with
  | error e =>
    rw [hq] at heval
    cases heval
  | ok q =>
    rw [hq] at heval
    cases hplan : ofQuery Rule.builtIn ⟨exhaustive,none⟩ q with
    | error e =>
      simp only [Except.toOption,Option.bind_some,hplan] at heval
      cases heval
    | ok plan =>
      simp only [Except.toOption,Option.bind_some,hplan,Option.any_some,Bool.and_eq_true,
        decide_eq_true_eq] at heval
      exact ⟨q,plan,rfl,hplan,heval⟩

/-- A plan replays exactly. For every solved plan of a query that is built, whatever the rules of
the library and the configuration: every step leads to the very query that the rule answers when it
is applied, so the steps can be carried out one after another from the query that was planned, and
what comes out in the end is the query to which the plan leads, which is consolidated. -/
theorem steps_replay {d : Description} (hq : d.build = .ok q)
    (hr : ∀ rule ∈ rules, rule ∈ Rule.builtIn) (h : ofQuery rules config q = .ok plan)
    (hs : plan.isSolved = true) :
    (∀ s ∈ plan.steps, plan.graph.Exact s) ∧
      ∃ final, plan.finalQuery? = some final ∧ final.isConsolidated = true ∧
        PlanStep.Lead q plan.steps final := by
  have hw := Description.written_build hq
  obtain ⟨hf,F,es,hfirst,hpath⟩ := first_of_isSolved hr hw.reducible h hs
  obtain ⟨st,hst,rfl⟩ := hf.start
  obtain ⟨⟨t,u,hlast,hu,hcons,hreplay⟩,-,hexact⟩ := hfirst.leads.replays hst
  rw [steps_eq hpath,finalQuery?_eq hpath,hlast,Option.bind_some,hu]
  exact ⟨hexact,u.query,rfl,hcons,hreplay⟩

/-- The plan for a vertex that occurs at most twice replays. -/
theorem steps_replay_limited : ∃ q plan, limited.build = .ok q ∧
    ofQuery Rule.builtIn .standard q = .ok plan ∧ plan.isSolved = true ∧
      ∃ final, plan.finalQuery? = some final ∧ PlanStep.Lead q plan.steps final := by
  obtain ⟨q,plan,hq,hplan,hs,-⟩ := limited_solved false
  obtain ⟨-,final,hfinal,-,hreplay⟩ := steps_replay hq (fun _ hr => hr) hplan hs
  exact ⟨q,plan,hq,hplan,hs,final,hfinal,hreplay⟩

/-- A solved plan has as many steps as the query takes effort. -/
theorem effort_eq (hr : Rule.AllBuiltIn rules) (h₀ : q.Reducible)
    (h : ofQuery rules config q = .ok plan) (hs : plan.isSolved = true) :
    q.gauged .effort = plan.steps.length+1 := by
  obtain ⟨hf,F,es,hfirst,hpath⟩ := first_of_isSolved hr h₀ h hs
  obtain ⟨st,hst,rfl⟩ := hf.start
  rw [steps_eq hpath,(hfirst.leads.replays hst).2.1]
  exact hfirst.leads.effort hf hr h₀ hst

/-- The length of a plan has a closed form. For every solved plan of a query that is built, whatever
the rules of the library and the configuration, there is one step for every vertex without
annotation, every edge, every subquery and every constraint, and one more for every vertex and every
subquery whose annotation has an upper bound. -/
theorem length_steps {d : Description} (hq : d.build = .ok q)
    (hr : ∀ rule ∈ rules, rule ∈ Rule.builtIn) (h : ofQuery rules config q = .ok plan)
    (hs : plan.isSolved = true) : plan.steps.length =
      ((q.vertices .whole).filter fun v => (q.itemBounds v).isNone).length +
      (q.edges .whole).length + (q.subqueries .whole).length + (q.constraints .whole).length +
      (((q.vertices .whole).filter fun v => ((q.itemBounds v).bind Annotation.max).isSome).length +
        ((q.subqueries .whole).filter fun c =>
          ((q.subqueryBounds c).bind Annotation.max).isSome).length) := by
  have hw := Description.written_build hq
  have heffort := effort_eq hr hw.reducible h hs
  rw [Query.effort_plain hw.wellFormed fun hx => (hw.item hx).plain] at heffort
  omega

/-- The plan for a vertex that occurs at most twice has as many steps as counted. -/
theorem length_steps_limited : ∃ q, limited.build = .ok q ∧
    ((q.vertices .whole).filter fun v => (q.itemBounds v).isNone).length +
      (q.edges .whole).length + (q.subqueries .whole).length + (q.constraints .whole).length +
      (((q.vertices .whole).filter fun v => ((q.itemBounds v).bind Annotation.max).isSome).length +
        ((q.subqueries .whole).filter fun c =>
          ((q.subqueryBounds c).bind Annotation.max).isSome).length) = 3 := by
  obtain ⟨q,plan,hq,hplan,hs,hlen⟩ := limited_solved false
  exact ⟨q,hq,(length_steps hq (fun _ hr => hr) hplan hs).symm.trans hlen⟩

/-- First-solution search and exhaustive search choose the same plan. For every query that is built
and for all rules of the library, without a greatest number of states: if the constants of the
description can be compared with, both searches answer; and if they answer, either both plans are
solved or none is, and solved plans have the same steps. -/
theorem steps_exhaustive {d : Description} (hq : d.build = .ok q)
    (hr : ∀ rule ∈ rules, rule ∈ Rule.builtIn) :
    (d.Comparable → ∃ first all, ofQuery rules ⟨false,none⟩ q = .ok first ∧
      ofQuery rules ⟨true,none⟩ q = .ok all) ∧
    ∀ {first all : Plan}, ofQuery rules ⟨false,none⟩ q = .ok first →
      ofQuery rules ⟨true,none⟩ q = .ok all →
      first.isSolved = all.isSolved ∧ (first.isSolved = true → first.steps = all.steps) := by
  have hw := Description.written_build hq
  refine ⟨fun hd => ?_,fun {first all} hfirst hall => ?_⟩
  · obtain ⟨hw,hc⟩ := Description.build_sound hd hq
    obtain ⟨first,hfirst,-⟩ := ofQuery_ok hr ⟨false,none⟩ hw hc
    obtain ⟨all,hall,-⟩ := ofQuery_ok hr ⟨true,none⟩ hw hc
    exact ⟨first,all,hfirst,hall⟩
  · obtain ⟨o₁,p₁,hrun₁,rfl⟩ := run_of_ofQuery hfirst
    obtain ⟨o,p,hrun,rfl⟩ := run_of_ofQuery hall
    rcases Search.run_standard rfl hrun with ⟨rfl,hstd⟩|⟨rfl,p₂,hstd,hfound⟩
    · rw [SearchConfig.standard,hrun₁] at hstd
      cases hstd
      exact ⟨rfl,fun _ => rfl⟩
    · rw [SearchConfig.standard,hrun₁] at hstd
      cases hstd
      obtain ⟨F,es,-,hleads₁,hleads⟩ := hfound.first
      have hk := Search.run_kept hrun
      have hpath₁ : (ofSearch .solved p₁).path = some es :=
        hleads₁.shortestPath? (hfound.kept.faithful.even hr hw.reducible)
      have hpath : (ofSearch .solved p).path = some es :=
        hleads.shortestPath? (hk.faithful.even hr hw.reducible)
      refine ⟨by rw [isSolved,isSolved,hpath₁,hpath],fun _ => ?_⟩
      rw [steps_eq hpath₁,steps_eq hpath]
      exact (hleads₁.leads.planSteps_grows hfound.grows).symm

/-- Both searches choose the same plan for a vertex that occurs at most twice. -/
theorem steps_exhaustive_limited : ∃ q first all, limited.build = .ok q ∧
    ofQuery Rule.builtIn ⟨false,none⟩ q = .ok first ∧ ofQuery Rule.builtIn ⟨true,none⟩ q = .ok all ∧
      first.isSolved = true ∧ first.steps = all.steps := by
  obtain ⟨q,first,hq,hfirst,hs,-⟩ := limited_solved false
  obtain ⟨q',all,hq',hall,-⟩ := limited_solved true
  rw [hq] at hq'
  cases hq'
  exact ⟨q,first,all,hq,hfirst,hall,hs,
    ((steps_exhaustive hq fun _ hr => hr).2 hfirst hall).2 hs⟩

end Plan

end GraphPattern
