import GraphPattern.Proofs.Search.Reach
import GraphPattern.Proofs.Step

/-!
# The first goal that a search finds

A search is depth first, so when it comes upon its first goal the states are of two sorts: those on
the path along which the goal was found, and those that are finished, from which no goal can be
reached. An exhaustive search goes on, but it adds steps to the states of that path only, behind
the steps of the path. So the path is there in both cases, every one of its steps has discovered
the state to which it leads, and what stands before such a step leads nowhere.
-/

namespace GraphPattern

open Step

namespace SearchGraph

variable {rules : List Rule} {q₀ : Query} {g h k : SearchGraph} {s t : StateId}
  {F A : StateId → Prop}

/-- The number belongs to a state. -/
def Live (g : SearchGraph) (s : StateId) : Prop := ∃ st, g.state? s = some st

/-- The number belongs to the state of a query. -/
def Shows (g : SearchGraph) (s : StateId) (q : Query) : Prop :=
  ∃ st, g.state? s = some st ∧ st.query = q

/-- An application was tried at a state. -/
def Tried (g : SearchGraph) (s : StateId) (vertex : ItemId) (rule : Rule) (a : Application) :
    Prop :=
  ∃ e x, g.step? e = some x ∧ x.source = s ∧ x.vertex = vertex ∧ x.rule = rule ∧ x.application = a

/-- Everything that the rules list at a state was tried. -/
def Explored (rules : List Rule) (g : SearchGraph) (s : StateId) : Prop :=
  ∀ st, g.state? s = some st → ∀ vertex ∈ st.query.vertices .whole, ∀ rule ∈ rules,
    ∃ as, rule.applications st.query vertex = .ok as ∧ ∀ a ∈ as, g.Tried s vertex rule a

/-- The states with a property are finished: they are explored, none of them is a goal, and no step
leads away from them. -/
structure Shut (rules : List Rule) (g : SearchGraph) (F : StateId → Prop) : Prop where
  /-- They are states. -/
  live : ∀ {s}, F s → g.Live s
  /-- None of them is a goal. -/
  aimless : ∀ {s}, F s → g.isGoal s = false
  /-- They are explored. -/
  explored : ∀ {s}, F s → g.Explored rules s
  /-- No step leads away. -/
  closed : ∀ {s}, F s → ∀ t ∈ g.successors s, F t

/-- What a search keeps true of its graph, together with the count of its steps. -/
structure Kept (rules : List Rule) (q₀ : Query) (g : SearchGraph) : Prop where
  /-- The graph is faithful. -/
  faithful : g.Faithful rules q₀
  /-- The states list no more steps than there are. -/
  tallied : g.Tallied

/-- The second graph continues the first one. Of the old states only one may have got further
steps, behind those that it had. -/
structure Extends (s : StateId) (g h : SearchGraph) : Prop where
  /-- States and steps are kept. -/
  grows : g.Grows h
  /-- Other states have the steps that they had. -/
  other : ∀ {t}, g.Live t → t ≠ s → h.out t = g.out t
  /-- The state has the steps that it had before all others. -/
  own : g.out s <+: h.out s

theorem Live.grows (hs : g.Live s) (hg : g.Grows h) : h.Live s := by
  obtain ⟨st,hst⟩ := hs
  obtain ⟨st',hst',-⟩ := hg.state hst
  exact ⟨st',hst'⟩

theorem Shows.live {q : Query} (hs : g.Shows s q) : g.Live s := hs.imp fun _ h => h.1

theorem Shows.grows {q : Query} (hs : g.Shows s q) (hg : g.Grows h) : h.Shows s q := by
  obtain ⟨st,hst,hq⟩ := hs
  obtain ⟨st',hst',hq'⟩ := hg.state hst
  exact ⟨st',hst',hq'.trans hq⟩

theorem isGoal_grows (hs : g.Live s) (hg : g.Grows h) : h.isGoal s = g.isGoal s := by
  obtain ⟨st,hst⟩ := hs
  obtain ⟨st',hst',hq⟩ := hg.state hst
  rw [isGoal,isGoal,hst,hst',Option.any_some,Option.any_some,SearchState.isGoal,hq]
  rfl

theorem Tried.grows {vertex : ItemId} {rule : Rule} {a : Application}
    (ht : g.Tried s vertex rule a) (hg : g.Grows h) : h.Tried s vertex rule a := by
  obtain ⟨e,x,he,hx⟩ := ht
  exact ⟨e,x,hg.step he,hx⟩

theorem Explored.grows (hs : g.Live s) (he : g.Explored rules s) (hg : g.Grows h) :
    h.Explored rules s := by
  obtain ⟨st,hst⟩ := hs
  obtain ⟨st₁,hst₁,hq⟩ := hg.state hst
  intro st' hst' vertex hv rule hr
  rw [hst₁] at hst'
  cases hst'
  obtain ⟨as,has,hall⟩ := he st hst vertex (hq ▸ hv) rule hr
  exact ⟨as,hq ▸ has,fun a ha => (hall a ha).grows hg⟩

theorem out_of_some {st : SearchState} (hs : g.state? s = some st) : g.out s = st.out := by
  rw [out,hs]
  rfl

/-- The successors of a state that has the same steps as before are the same. -/
theorem Faithful.successors_eq (hf : g.Faithful rules q₀) (hg : g.Grows h)
    (hout : h.out s = g.out s) : h.successors s = g.successors s := by
  rw [successors,successors,hout]
  refine List.filterMap_congr fun e he => ?_
  cases hs : g.state? s with
  | none =>
    rw [out,hs] at he
    cases he
  | some st =>
    rw [out,hs] at he
    obtain ⟨x,hx,-⟩ := (hf.listed hs).mp he
    rw [target?,target?,hx,hg.step hx]

theorem Extends.prefix_out (hg : g.Extends s h) (ht : g.Live t) : g.out t <+: h.out t := by
  by_cases hts : t = s
  · exact hts ▸ hg.own
  · rw [hg.other ht hts]

theorem Extends.refl (s : StateId) (g : SearchGraph) : g.Extends s g :=
  ⟨.refl g,fun _ _ => rfl,List.prefix_rfl⟩

theorem Extends.trans (hg : g.Extends s h) (hh : h.Extends s k) : g.Extends s k where
  grows := hg.grows.trans hh.grows
  other ht hne := (hh.other (ht.grows hg.grows) hne).trans (hg.other ht hne)
  own := hg.own.trans hh.own

/-- A graph that was continued at one state and then at a new one was continued at the first. -/
theorem Extends.of_new (hs : g.Live s) (ht : ¬g.Live t) (hg : g.Extends s h)
    (hh : h.Extends t k) : g.Extends s k where
  grows := hg.grows.trans hh.grows
  other hu hne := (hh.other (hu.grows hg.grows) fun he => ht (he ▸ hu)).trans (hg.other hu hne)
  own := by
    rw [hh.other (hs.grows hg.grows) fun he => ht (he ▸ hs)]
    exact hg.own

theorem live_iff : g.Live s ↔ s.index<g.states.size := by
  constructor
  · rintro ⟨st,hst⟩
    exact state?_lt hst
  · exact fun h => ⟨_,Array.getElem?_eq_getElem h⟩

/-- A step that is added at a state continues the graph there. -/
theorem extends_addStep (g : SearchGraph) {x : SearchStep} (hx : x.source = s) :
    g.Extends s (g.addStep x) where
  grows := grows_addStep g x
  other _ hne := by rw [out_addStep,if_neg fun h => hne (h.1.trans hx)]
  own := by
    rw [out_addStep]
    split
    · exact List.prefix_append _ _
    · exact List.prefix_rfl

theorem extends_addState (g : SearchGraph) (q : Query) (s : StateId) :
    g.Extends s (g.addState q) where
  grows := grows_addState g q
  other _ _ := out_addState g q _
  own := by rw [out_addState]

/-- What is finished stays so where nothing is added to it. -/
theorem Shut.extends (hF : g.Shut rules F) (hf : g.Faithful rules q₀) (hg : g.Extends s h)
    (hs : ¬F s) : h.Shut rules F where
  live ht := (hF.live ht).grows hg.grows
  aimless ht := by rw [isGoal_grows (hF.live ht) hg.grows]; exact hF.aimless ht
  explored ht := (hF.explored ht).grows (hF.live ht) hg.grows
  closed {t} ht u hu := by
    have hne : t ≠ s := fun he => hs (he ▸ ht)
    rw [hf.successors_eq hg.grows (hg.other (hF.live ht) hne)] at hu
    exact hF.closed ht u hu

theorem Path.grows {es : List StepId} (hp : g.Path s es t) (hg : g.Grows h) : h.Path s es t := by
  induction hp with
  | nil s => exact .nil s
  | cons found source _ ih => exact .cons (hg.step found) source ih

/-! ## The path to the first goal -/

/-- The steps lead to a goal. Each of them has discovered the state to which it leads, and all
steps that stand before it lead to finished states. -/
inductive Leads (rules : List Rule) (g : SearchGraph) (F : StateId → Prop) :
    StateId → List StepId → Prop
  /-- The goal is reached. -/
  | goal {s : StateId} (h : g.isGoal s = true) : Leads rules g F s []
  /-- A step comes first. -/
  | step {s : StateId} {e : StepId} {x : SearchStep} {a b : SearchState}
    {before after es : List StepId} (aimless : g.isGoal s = false)
    (out : g.out s = before ++ e :: after) (found : g.step? e = some x) (source : x.source = s)
    (idle : ∀ f ∈ before, ∀ y, g.step? f = some y → F y.target) (here : g.state? s = some a)
    (there : g.state? x.target = some b) (carries : x.Carries rules a.query b.query)
    (later : s.index<x.target.index) (rest : Leads rules g F x.target es) :
    Leads rules g F s (e :: es)

/-- The steps to a goal stay what they are when states get further steps. -/
theorem Leads.extends {es : List StepId} (hl : g.Leads rules F t es) (hg : g.Extends s h)
    (hf : g.Faithful rules q₀) (hlive : g.Live t) : h.Leads rules F t es := by
  induction hl with
  | goal hgoal => exact .goal (by rw [isGoal_grows hlive hg.grows]; exact hgoal)
  | @step t e x a b before after es aimless out found source idle here there carries later rest ih =>
    obtain ⟨a',ha',haq⟩ := hg.grows.state here
    obtain ⟨b',hb',hbq⟩ := hg.grows.state there
    obtain ⟨more,hmore⟩ := hg.prefix_out hlive
    rw [out,List.append_assoc,List.cons_append] at hmore
    refine .step (by rw [isGoal_grows hlive hg.grows]; exact aimless) hmore.symm
      (hg.grows.step found) source (fun f hm y hy => ?_) ha' hb' (haq ▸ hbq ▸ carries) later
      (ih ⟨_,there⟩)
    -- A step that the state listed before was known before.
    have hm' : f ∈ g.out t := out ▸ List.mem_append_left _ hm
    rw [out_of_some here] at hm'
    obtain ⟨z,hz,-⟩ := (hf.listed here).mp hm'
    have hsame := hg.grows.step hz
    rw [hy] at hsame
    cases hsame
    exact idle f hm _ hz

/-- The steps lead from a state to the first goal that a search finds: beside the states that are
under way, which the second property holds of, everything is finished. -/
structure First (rules : List Rule) (g : SearchGraph) (A F : StateId → Prop) (s : StateId)
    (es : List StepId) : Prop where
  /-- The steps lead to a goal. -/
  leads : g.Leads rules F s es
  /-- What stands before them is finished. -/
  shut : g.Shut rules F
  /-- States that are under way are not finished. -/
  apart : ∀ {t}, F t → ¬A t

theorem First.extends {es : List StepId} (hl : g.First rules A F s es) (hg : g.Extends s h)
    (hf : g.Faithful rules q₀) (hlive : g.Live s) (hs : A s) : h.First rules A F s es :=
  ⟨hl.leads.extends hg hf hlive,hl.shut.extends hf hg fun hF => hl.apart hF hs,hl.apart⟩

/-- A search is under way at the states with a property, the last of which is given. No goal has
been found so far. -/
structure Pending (rules : List Rule) (q₀ : Query) (A : StateId → Prop) (s : StateId)
    (g : SearchGraph) : Prop where
  /-- The graph is what a search makes. -/
  kept : g.Kept rules q₀
  /-- The state is under way. -/
  mem : A s
  /-- From every state under way a path leads to the last one. -/
  path : ∀ {t}, A t → g.Live t ∧ ∃ es, g.Path t es s
  /-- All other states are finished. -/
  shut : g.Shut rules fun t => g.Live t ∧ ¬A t
  /-- The steps from the last state lead to finished ones. -/
  led : ∀ t ∈ g.successors s, g.Live t ∧ ¬A t

theorem Kept.path_reaches (hk : g.Kept rules q₀) (hs : g.Live s) {es : List StepId}
    (hp : g.Path s es t) : g.reaches s t = true := by
  refine reaches_of_path hk.tallied (fun {e x} he => ?_) (fun {e x} he => ?_) (live_iff.mp hs) hp
  · obtain ⟨st,-,-,hst,-⟩ := hk.faithful.step he
    rw [out,hst]
    exact (hk.faithful.listed hst).mpr ⟨x,he,rfl⟩
  · obtain ⟨-,st,-,-,hst,-⟩ := hk.faithful.step he
    exact state?_lt hst

/-- What was explored without a goal is finished. -/
theorem Pending.finished {q : Query} (hp : g.Pending rules q₀ A s) (hq : g.Shows s q)
    (hgoal : q.isConsolidated = false) (he : g.Explored rules s) :
    g.Shut rules fun t => g.Live t ∧ (A t → t = s) := by
  have hcases : ∀ {t}, g.Live t ∧ (A t → t = s) → t = s ∨ (g.Live t ∧ ¬A t) := fun {t} h => by
    by_cases hts : t = s
    · exact .inl hts
    · exact .inr ⟨h.1,fun hA => hts (h.2 hA)⟩
  refine ⟨And.left,fun {t} ht => ?_,fun {t} ht => ?_,fun {t} ht u hu => ?_⟩
  · rcases hcases ht with rfl|ht
    · obtain ⟨st,hst,rfl⟩ := hq
      rw [isGoal,hst]
      exact hgoal
    · exact hp.shut.aimless ht
  · rcases hcases ht with rfl|ht
    · exact he
    · exact hp.shut.explored ht
  · have hu' : g.Live u ∧ ¬A u := by
      rcases hcases ht with rfl|ht
      · exact hp.led u hu
      · exact hp.shut.closed ht u hu
    exact ⟨hu'.1,fun hA => absurd hA hu'.2⟩

end SearchGraph

namespace Search

open SearchGraph

variable {rules : List Rule} {config : SearchConfig} {q₀ : Query} {s : StateId}
  {A F : StateId → Prop}

/-! ## What a reduction adds -/

/-- A reduction of a search carries the rule out, and adds a step to a known state or a new state
with the step that discovers it. -/
theorem reduce_cases {q : Query} {vertex : ItemId} {rule : Rule} {a : Application}
    {p p' : SearchProgress} {target : Option StateId}
    (h : reduce s q vertex rule a p = .ok target p') :
    ∃ r result, rule.apply q a = .ok r ∧ r.result = .ok result ∧
      ((∃ known, target = none ∧ p.graph.find? r.query.content = some known ∧
          p.graph.reaches known s = false ∧
          p'.graph = p.graph.addStep ⟨s,known,vertex,rule,a,result⟩) ∨
        (target = some ⟨p.graph.states.size⟩ ∧ p.graph.find? r.query.content = none ∧
          p'.graph = (p.graph.addState r.query).addStep
            ⟨s,⟨p.graph.states.size⟩,vertex,rule,a,result⟩)) := by
  simp only [reduce,count,extend,bind_apply,modify_apply,get_apply] at h
  cases hr : rule.apply q a with
  | error e => simp [hr] at h
  | ok r =>
    cases hres : r.result with
    | error e => simp [hr,hres] at h
    | ok result =>
      refine ⟨r,result,rfl,hres,?_⟩
      simp only [hr,hres,lift_ok] at h
      cases hf : p.graph.find? r.query.content with
      | none =>
        simp only [hf,bind_apply,modify_apply,pure_apply] at h
        cases h
        exact .inr ⟨rfl,rfl,rfl⟩
      | some known =>
        simp only [hf] at h
        by_cases hreach : p.graph.reaches known s = true
        · simp [hreach,bind_apply] at h
        · have hreach := Bool.eq_false_iff.mpr hreach
          simp only [hreach,Bool.false_eq_true,if_false,bind_apply,modify_apply,pure_apply] at h
          cases h
          exact .inl ⟨known,rfl,rfl,hreach,rfl⟩

/-- The state that a reduction discovers is new. -/
theorem reduce_new_live {q : Query} {vertex : ItemId} {rule : Rule} {a : Application}
    {p p' : SearchProgress} {t : StateId} (h : reduce s q vertex rule a p = .ok (some t) p') :
    ¬p.graph.Live t ∧ ∃ q', p'.graph.Shows t q' := by
  obtain ⟨r,result,-,-,⟨known,ht,-⟩|⟨ht,-,hp'⟩⟩ := reduce_cases h
  · cases ht
  · cases ht
    refine ⟨fun hlive => Nat.lt_irrefl _ (live_iff.mp hlive),r.query,?_⟩
    have hfound : (p.graph.addState r.query).Shows ⟨p.graph.states.size⟩ r.query :=
      ⟨.ofQuery r.query,by rw [state?_addState,if_pos rfl],rfl⟩
    rw [hp']
    exact hfound.grows (grows_addStep _ _)

/-- A step was added at a state, behind those that the state had. -/
structure Added (s : StateId) (g h : SearchGraph) (e : StepId) (x : SearchStep) : Prop where
  /-- The graph has the step. -/
  found : h.step? e = some x
  /-- It leaves the state. -/
  source : x.source = s
  /-- It is the last one that the state lists. -/
  last : h.out s = g.out s ++ [e]

/-- What the state leads to after a step was added, it led to before, or the step leads there. -/
theorem Added.successors {g h : SearchGraph} {e : StepId} {x : SearchStep} {t : StateId}
    (ha : Added s g h e x) (hf : g.Faithful rules q₀) (hg : g.Grows h) (hs : g.Live s)
    (ht : t ∈ h.successors s) : t ∈ g.successors s ∨ t = x.target := by
  obtain ⟨f,hm,y,hy,rfl⟩ := mem_successors ht
  rw [ha.last,List.mem_append,List.mem_singleton] at hm
  rcases hm with hm|rfl
  · obtain ⟨st,hst⟩ := hs
    have hm' := hm
    rw [out_of_some hst] at hm'
    obtain ⟨z,hz,-⟩ := (hf.listed hst).mp hm'
    have hsame := hg.step hz
    rw [hy] at hsame
    cases hsame
    exact .inl (List.mem_filterMap.mpr ⟨f,hm,by rw [target?,hz]; rfl⟩)
  · rw [ha.found] at hy
    cases hy
    exact .inr rfl

/-- What a reduction has added: a step to a known state from which no path leads back, or a step to
a new state, which it has discovered. -/
theorem reduce_added {q : Query} {vertex : ItemId} {rule : Rule} {a : Application}
    {p p' : SearchProgress} {target : Option StateId} (hs : p.graph.Live s)
    (h : reduce s q vertex rule a p = .ok target p') :
    ∃ e x, Added s p.graph p'.graph e x ∧
      (x.vertex = vertex ∧ x.rule = rule ∧ x.application = a) ∧
      ((target = none ∧ p.graph.Live x.target ∧ p.graph.reaches x.target s = false ∧
          ∀ t, p'.graph.Live t ↔ p.graph.Live t) ∨
        (target = some x.target ∧ s.index<x.target.index ∧ p'.graph.out x.target = [] ∧
          (∃ r, rule.apply q a = .ok r ∧ r.result = .ok x.result ∧
            p'.graph.Shows x.target r.query) ∧
          ∀ t, p'.graph.Live t ↔ p.graph.Live t ∨ t = x.target)) := by
  obtain ⟨r,result,happ,hres,⟨known,ht,hf,hr,hp'⟩|⟨ht,hf,hp'⟩⟩ := reduce_cases h
  · refine ⟨⟨p.graph.steps.size⟩,⟨s,known,vertex,rule,a,result⟩,⟨?_,rfl,?_⟩,⟨rfl,rfl,rfl⟩,
      .inl ⟨ht,?_,hr,fun t => ?_⟩⟩
    · rw [hp',step?_addStep,if_pos rfl]
    · rw [hp',out_addStep,if_pos ⟨rfl,by obtain ⟨st,hst⟩ := hs; rw [hst]; rfl⟩]
    · obtain ⟨kt,hkt,-⟩ := find?_some hf
      exact ⟨kt,hkt⟩
    · rw [hp',live_iff,live_iff,size_addStep]
  · have hlt := live_iff.mp hs
    have hold : (p.graph.addState r.query).state? s = p.graph.state? s := by
      rw [state?_addState,if_neg fun he => Nat.lt_irrefl _ (he ▸ hlt)]
    have hnone : p.graph.state? ⟨p.graph.states.size⟩ = none :=
      Array.getElem?_eq_none (Nat.le_refl _)
    refine ⟨⟨p.graph.steps.size⟩,⟨s,⟨p.graph.states.size⟩,vertex,rule,a,result⟩,⟨?_,rfl,?_⟩,
      ⟨rfl,rfl,rfl⟩,.inr ⟨ht,hlt,?_,⟨r,happ,hres,?_⟩,fun t => ?_⟩⟩
    · rw [hp',step?_addStep]
      exact if_pos rfl
    · rw [hp',out_addStep,out_addState,
        if_pos ⟨rfl,by obtain ⟨st,hst⟩ := hs; rw [hold,hst]; rfl⟩]
      rfl
    · rw [hp',out_addStep,out_addState,if_neg fun he => ?_]
      · rw [out,hnone]
        rfl
      · exact absurd (congrArg StateId.index he.1) (Nat.ne_of_gt hlt)
    · have hfound : (p.graph.addState r.query).Shows ⟨p.graph.states.size⟩ r.query :=
        ⟨.ofQuery r.query,by rw [state?_addState,if_pos rfl],rfl⟩
      rw [hp']
      exact hfound.grows (grows_addStep _ _)
    · rw [hp',live_iff,live_iff,size_addStep,size_addState,Nat.lt_succ_iff_lt_or_eq]
      exact or_congr_right ⟨fun he => congrArg StateId.mk he,congrArg StateId.index⟩

variable {q : Query} {depth : Nat}

/-- Explore the state that a reduction may have discovered. -/
def pursue (rules : List Rule) (config : SearchConfig) (depth : Nat) :
    Option StateId → SearchAction SearchOutcome
  | none => return .exhausted
  | some target => do
    if config.exceeds (← get).graph.states.size then return .capped
    expand rules config depth target

/-- Try one application at a state and explore the state that it may discover. -/
def explore (rules : List Rule) (config : SearchConfig) (depth : Nat) (s : StateId) (q : Query)
    (vertex : ItemId) (rule : Rule) (a : Application) : SearchAction SearchOutcome := do
  pursue rules config depth (← reduce s q vertex rule a)

/-- Try everything that one rule lists at a vertex. -/
def ask (rules : List Rule) (config : SearchConfig) (depth : Nat) (s : StateId) (q : Query)
    (vertex : ItemId) (rule : Rule) : SearchAction SearchOutcome := do
  let applications ← rule.applications q vertex
  tryAll config (explore rules config depth s q vertex rule) .exhausted applications

/-- Try everything that the rules list at a query. -/
def askAll (rules : List Rule) (config : SearchConfig) (depth : Nat) (s : StateId) (q : Query) :
    SearchAction SearchOutcome :=
  tryAll config (fun vertex => tryAll config (ask rules config depth s q vertex) .exhausted rules)
    .exhausted (q.vertices .whole)

theorem expand_succ (rules : List Rule) (config : SearchConfig) (depth : Nat) {p : SearchProgress}
    {st : SearchState} (hs : p.graph.state? s = some st) :
    expand rules config (depth+1) s p =
      if st.isGoal = true then .ok .solved p else askAll rules config depth s st.query p := by
  rw [expand,bind_of_ok (get_apply p)]
  simp only [hs]
  split <;> rfl

/-! ## What a search keeps -/

/-- A part of a search at a state keeps the graph and adds to that state and to new ones only. -/
def Continues {α : Type} (rules : List Rule) (q₀ : Query) (s : StateId) (q : Query)
    (x : SearchAction α) : Prop :=
  ∀ p a p', p.graph.Kept rules q₀ → p.graph.Shows s q → x p = .ok a p' →
    p'.graph.Kept rules q₀ ∧ p.graph.Extends s p'.graph

theorem reduce_continues {vertex : ItemId} {rule : Rule} {a : Application}
    {as : List Application} (hv : vertex ∈ q.vertices .whole) (hr : rule ∈ rules)
    (has : rule.applications q vertex = .ok as) (ha : a ∈ as) :
    Continues rules q₀ s q (reduce s q vertex rule a) := by
  rintro p target p' hk ⟨st,hs,rfl⟩ h
  obtain ⟨r,result,happ,hres,hcases⟩ := reduce_cases h
  have hcarries : ∀ t, (SearchStep.mk s t vertex rule a result).Carries rules st.query r.query :=
    fun t => ⟨hr,hv,⟨as,has,ha⟩,r.output,happ,hres⟩
  rcases hcases with ⟨known,-,hf,-,hp'⟩|⟨-,hf,hp'⟩
  · obtain ⟨kt,hkt,hkc⟩ := find?_some hf
    rw [hp']
    exact ⟨⟨hk.faithful.addStep hs hkt (hcarries known) (hkc.symm.trans kt.content_eq),
      hk.tallied.addStep (state?_lt hs)⟩,extends_addStep _ rfl⟩
  · rw [hp']
    refine ⟨⟨hk.faithful.addNew hs rfl (hcarries _) hf,
      (hk.tallied.addState r.query).addStep ?_⟩,
      (extends_addState _ _ s).trans (extends_addStep _ rfl)⟩
    rw [size_addState]
    exact Nat.lt_succ_of_lt (state?_lt hs)

theorem tryAll_continues {α : Type} {explore : α → SearchAction SearchOutcome} {as : List α}
    (h : ∀ a ∈ as, Continues rules q₀ s q (explore a)) (found : SearchOutcome) :
    Continues rules q₀ s q (tryAll config explore found as) := by
  induction as generalizing found with
  | nil =>
    rintro p o p' hk - h
    cases h
    exact ⟨hk,.refl s _⟩
  | cons a as ih =>
    intro p o p' hk hq h'
    have hrest := ih fun b hb => h b (List.mem_cons_of_mem _ hb)
    rw [tryAll,bind_eq_ok] at h'
    obtain ⟨o₁,p₁,h₁,h'⟩ := h'
    obtain ⟨hk₁,he₁⟩ := h a List.mem_cons_self p o₁ p₁ hk hq h₁
    have hgo : ∀ {found o p'}, tryAll config explore found as p₁ = .ok o p' →
        p'.graph.Kept rules q₀ ∧ p.graph.Extends s p'.graph := fun h => by
      obtain ⟨hk',he'⟩ := hrest _ _ _ _ hk₁ (hq.grows he₁.grows) h
      exact ⟨hk',he₁.trans he'⟩
    cases o₁ with
    | capped =>
      cases h'
      exact ⟨hk₁,he₁⟩
    | solved =>
      simp only at h'
      split at h'
      · exact hgo h'
      · cases h'
        exact ⟨hk₁,he₁⟩
    | exhausted => exact hgo h'

theorem explore_continues
    (hd : ∀ s q, Continues rules q₀ s q (expand rules config depth s)) {vertex : ItemId}
    {rule : Rule} {a : Application} {as : List Application} (hv : vertex ∈ q.vertices .whole)
    (hr : rule ∈ rules) (has : rule.applications q vertex = .ok as) (ha : a ∈ as) :
    Continues rules q₀ s q (explore rules config depth s q vertex rule a) := by
  intro p o p' hk hq h
  rw [explore,bind_eq_ok] at h
  obtain ⟨target,p₁,hred,h⟩ := h
  obtain ⟨hk₁,he₁⟩ := reduce_continues hv hr has ha p target p₁ hk hq hred
  cases target with
  | none =>
    cases h
    exact ⟨hk₁,he₁⟩
  | some t =>
    rw [pursue,bind_of_ok (get_apply p₁)] at h
    split at h
    · cases h
      exact ⟨hk₁,he₁⟩
    · obtain ⟨ht,q',hq'⟩ := reduce_new_live hred
      obtain ⟨hk',he'⟩ := hd t q' p₁ o p' hk₁ hq' h
      exact ⟨hk',he₁.of_new hq.live ht he'⟩

/-- What one rule lists at a vertex is tried in turn. -/
theorem tryAll_of_ask {vertex : ItemId} {rule : Rule} {depth : Nat} {o : SearchOutcome}
    (h : ask rules config depth s q vertex rule p = .ok o p') :
    ∃ as, rule.applications q vertex = .ok as ∧
      tryAll config (explore rules config depth s q vertex rule) .exhausted as p = .ok o p' := by
  rw [ask,bind_eq_ok] at h
  obtain ⟨as,p₁,hask,h⟩ := h
  obtain ⟨has,rfl⟩ := lift_eq_ok.mp hask
  exact ⟨as,has,h⟩

theorem ask_continues (hd : ∀ s q, Continues rules q₀ s q (expand rules config depth s))
    {vertex : ItemId} {rule : Rule} (hv : vertex ∈ q.vertices .whole) (hr : rule ∈ rules) :
    Continues rules q₀ s q (ask rules config depth s q vertex rule) := by
  intro p o p' hk hq h
  obtain ⟨as,has,h⟩ := tryAll_of_ask h
  exact tryAll_continues (fun a ha => explore_continues hd hv hr has ha) .exhausted p o p' hk hq h

/-- Exploring a state adds to this state and to new ones only. -/
theorem expand_continues (rules : List Rule) (config : SearchConfig) (q₀ : Query) :
    ∀ (depth : Nat) (s : StateId) (q : Query),
      Continues rules q₀ s q (expand rules config depth s)
  | 0, _, _ => by
    intro p o p' _ _ h
    cases h
  | depth+1, s, q => by
    rintro p o p' hk ⟨st,hs,rfl⟩ h
    rw [expand_succ rules config depth hs] at h
    split at h
    · cases h
      exact ⟨hk,.refl s _⟩
    · refine tryAll_continues (fun vertex hv => ?_) .exhausted p o p' hk ⟨st,hs,rfl⟩ h
      exact tryAll_continues
        (fun rule hr => ask_continues (expand_continues rules config q₀ depth) hv hr) .exhausted

/-! ## Up to the first goal -/

/-- A search that stops at its first goal has found one, and the other search, which may have gone
on, has found it along the same steps. What was finished in a graph before is finished. -/
structure Found (rules : List Rule) (q₀ : Query) (A : StateId → Prop) (s : StateId)
    (g : SearchGraph) (p₁ p : SearchProgress) : Prop where
  /-- The graph of the first search is what a search makes. -/
  kept : p₁.graph.Kept rules q₀
  /-- The other graph continues it. -/
  grows : p₁.graph.Grows p.graph
  /-- In both graphs the same steps lead to the first goal. -/
  first : ∃ F es, (∀ {t}, g.Live t → ¬A t → F t) ∧ p₁.graph.First rules A F s es ∧
    p.graph.First rules A F s es

/-- Two parts of searches at a state, the second of which stops at the first goal, do the same up to
that goal: if the first part ends without a goal, so does the second one, in the same progress, and
something is known of the graph; if the first part has found a goal, so has the second one. -/
def Agree (rules : List Rule) (q₀ : Query) (A : StateId → Prop) (s : StateId) (q : Query)
    (T : SearchGraph → Prop) (x y : SearchAction SearchOutcome) : Prop :=
  ∀ p o p', p.graph.Pending rules q₀ A s → p.graph.Shows s q → x p = .ok o p' →
    (o = .exhausted → y p = .ok .exhausted p' ∧ p'.graph.Pending rules q₀ A s ∧ T p'.graph) ∧
    (o = .solved → ∃ p₁, y p = .ok .solved p₁ ∧ Found rules q₀ A s p.graph p₁ p')

theorem tryAll_solved {α : Type} {explore : α → SearchAction SearchOutcome} {as : List α}
    {p p' : SearchProgress} {o : SearchOutcome}
    (h : tryAll config explore .solved as p = .ok o p') : o ≠ .exhausted := by
  induction as generalizing p with
  | nil =>
    cases h
    nofun
  | cons a as ih =>
    rw [tryAll,bind_eq_ok] at h
    obtain ⟨o₁,p₁,-,h⟩ := h
    cases o₁ with
    | capped =>
      cases h
      nofun
    | solved =>
      simp only at h
      split at h
      · exact ih h
      · cases h
        nofun
    | exhausted => exact ih h

/-- Alternatives agree if each of them does. -/
theorem tryAll_agree {α : Type} {T : α → SearchGraph → Prop}
    (hT : ∀ {a g h}, T a g → g.Grows h → T a h) {x y : α → SearchAction SearchOutcome}
    {as : List α} (hx : ∀ a ∈ as, Continues rules q₀ s q (x a))
    (h : ∀ a ∈ as, Agree rules q₀ A s q (T a) (x a) (y a)) :
    Agree rules q₀ A s q (fun g => ∀ a ∈ as, T a g) (tryAll config x .exhausted as)
      (tryAll .standard y .exhausted as) := by
  induction as with
  | nil =>
    rintro p o p' hp - h'
    cases h'
    exact ⟨fun _ => ⟨rfl,hp,nofun⟩,nofun⟩
  | cons a as ih =>
    intro p o p' hp hq h'
    have hrest := ih (fun b hb => hx b (List.mem_cons_of_mem _ hb))
      fun b hb => h b (List.mem_cons_of_mem _ hb)
    have htail : ∀ found, Continues rules q₀ s q (tryAll config x found as) :=
      tryAll_continues fun b hb => hx b (List.mem_cons_of_mem _ hb)
    rw [tryAll,bind_eq_ok] at h'
    obtain ⟨o₁,p₁,h₁,h'⟩ := h'
    obtain ⟨hk₁,he₁⟩ := hx a List.mem_cons_self p o₁ p₁ hp.kept hq h₁
    have hq₁ := hq.grows he₁.grows
    obtain ⟨hex,hsol⟩ := h a List.mem_cons_self p o₁ p₁ hp hq h₁
    cases o₁ with
    | capped =>
      cases h'
      exact ⟨nofun,nofun⟩
    | solved =>
      obtain ⟨p₂,h₂,hfound⟩ := hsol rfl
      have hstd : tryAll .standard y .exhausted (a :: as) p = .ok .solved p₂ := by
        rw [tryAll,bind_of_ok h₂]
        rfl
      simp only at h'
      split at h'
      · -- The search goes on, and what it adds does not touch the path.
        obtain ⟨hk',he'⟩ := htail _ _ _ _ hk₁ hq₁ h'
        refine ⟨fun ho => absurd ho (tryAll_solved h'),fun _ => ⟨p₂,hstd,hfound.kept,
          hfound.grows.trans he'.grows,?_⟩⟩
        obtain ⟨F,es,hF,hfirst,hfirst'⟩ := hfound.first
        exact ⟨F,es,hF,hfirst,hfirst'.extends he' hk₁.faithful hq₁.live hp.mem⟩
      · cases h'
        exact ⟨nofun,fun _ => ⟨p₂,hstd,hfound⟩⟩
    | exhausted =>
      obtain ⟨h₂,hp₁,hTa⟩ := hex rfl
      have hstd : ∀ r, tryAll .standard y .exhausted as p₁ = r →
          tryAll .standard y .exhausted (a :: as) p = r := fun r hr => by
        rw [tryAll,bind_of_ok h₂]
        exact hr
      obtain ⟨hex',hsol'⟩ := hrest p₁ o p' hp₁ hq₁ h'
      refine ⟨fun ho => ?_,fun ho => ?_⟩
      · obtain ⟨h₃,hp',hTs⟩ := hex' ho
        refine ⟨hstd _ h₃,hp',fun b hb => ?_⟩
        rcases List.mem_cons.mp hb with rfl|hb
        · exact hT hTa (htail _ _ _ _ hk₁ hq₁ h').2.grows
        · exact hTs b hb
      · obtain ⟨p₂,h₃,hfound⟩ := hsol' ho
        obtain ⟨F,es,hF,hfirst⟩ := hfound.first
        exact ⟨p₂,hstd _ h₃,hfound.kept,hfound.grows,F,es,fun ht => hF (ht.grows he₁.grows),hfirst⟩

/-- A step to a finished state leaves the search under way. -/
theorem pending_known {p p' : SearchProgress} (hp : p.graph.Pending rules q₀ A s)
    (hk : p'.graph.Kept rules q₀) (he : p.graph.Extends s p'.graph) {e : StepId} {x : SearchStep}
    (ha : Added s p.graph p'.graph e x) (hx : p.graph.Live x.target)
    (hr : p.graph.reaches x.target s = false)
    (hlive : ∀ t, p'.graph.Live t ↔ p.graph.Live t) : p'.graph.Pending rules q₀ A s := by
  have hs := (hp.path hp.mem).1
  -- From a state under way a path would lead back.
  have hfree : ¬A x.target := fun hA => by
    obtain ⟨-,es,hes⟩ := hp.path hA
    rw [hp.kept.path_reaches hx hes] at hr
    cases hr
  refine ⟨hk,hp.mem,fun hA => ?_,?_,fun t ht => ?_⟩
  · obtain ⟨hlive,es,hes⟩ := hp.path hA
    exact ⟨hlive.grows he.grows,es,hes.grows he.grows⟩
  · simp only [hlive]
    exact hp.shut.extends hp.kept.faithful he fun h => h.2 hp.mem
  · rw [hlive]
    rcases ha.successors hp.kept.faithful he.grows hs ht with ht|rfl
    · exact hp.led t ht
    · exact ⟨hx,hfree⟩

/-- A step to a new state puts the search under way at that state. -/
theorem pending_new {p p' : SearchProgress} (hp : p.graph.Pending rules q₀ A s)
    (hk : p'.graph.Kept rules q₀) (he : p.graph.Extends s p'.graph) {e : StepId} {x : SearchStep}
    (ha : Added s p.graph p'.graph e x) (hx : ¬p.graph.Live x.target)
    (hout : p'.graph.out x.target = [])
    (hlive : ∀ t, p'.graph.Live t ↔ p.graph.Live t ∨ t = x.target) :
    p'.graph.Pending rules q₀ (fun t => t = x.target ∨ A t) x.target := by
  have hold : (fun t => p'.graph.Live t ∧ ¬(t = x.target ∨ A t)) =
      fun t => p.graph.Live t ∧ ¬A t := by
    funext t
    rw [hlive,not_or]
    refine propext ⟨fun h => ⟨h.1.resolve_right h.2.1,h.2.2⟩,fun h => ⟨.inl h.1,?_,h.2⟩⟩
    rintro rfl
    exact hx h.1
  have hstep : p'.graph.Path s [e] x.target := .cons ha.found ha.source (.nil _)
  refine ⟨hk,.inl rfl,fun {t} ht => ?_,?_,fun t ht => ?_⟩
  · rcases ht with rfl|hA
    · exact ⟨(hlive _).mpr (.inr rfl),[],.nil _⟩
    · obtain ⟨hlive,es,hes⟩ := hp.path hA
      exact ⟨hlive.grows he.grows,es ++ [e],(hes.grows he.grows).append hstep⟩
  · rw [hold]
    exact hp.shut.extends hp.kept.faithful he fun h => h.2 hp.mem
  · rw [successors,hout] at ht
    cases ht

/-- When a new state is finished, the search is under way again at the state before. -/
theorem pending_back {p p₁ p' : SearchProgress} (hp : p.graph.Pending rules q₀ A s)
    (hk : p'.graph.Kept rules q₀) (hk₁ : p₁.graph.Kept rules q₀)
    (he : p.graph.Extends s p₁.graph) {e : StepId} {x : SearchStep}
    (ha : Added s p.graph p₁.graph e x) (hx : ¬p.graph.Live x.target)
    (he' : p₁.graph.Extends x.target p'.graph) (hlive : p₁.graph.Live x.target)
    (hshut : p'.graph.Shut rules fun t =>
      p'.graph.Live t ∧ (t = x.target ∨ A t → t = x.target)) :
    p'.graph.Pending rules q₀ A s := by
  have hs := (hp.path hp.mem).1
  have hA : ∀ {t}, A t → t ≠ x.target := fun hA h => hx (h ▸ (hp.path hA).1)
  have hsame : (fun t => p'.graph.Live t ∧ (t = x.target ∨ A t → t = x.target)) =
      fun t => p'.graph.Live t ∧ ¬A t := by
    funext t
    refine propext (and_congr_right fun _ => ⟨fun h h' => hA h' (h (.inr h')),fun h h' => ?_⟩)
    exact h'.resolve_right h
  rw [hsame] at hshut
  refine ⟨hk,hp.mem,fun hA => ?_,hshut,fun t ht => ?_⟩
  · obtain ⟨hlive,es,hes⟩ := hp.path hA
    exact ⟨hlive.grows (he.grows.trans he'.grows),es,hes.grows (he.grows.trans he'.grows)⟩
  · have hne : s ≠ x.target := fun h => hx (h ▸ hs)
    rw [hk₁.faithful.successors_eq he'.grows (he'.other (hs.grows he.grows) hne)] at ht
    rcases ha.successors hp.kept.faithful he.grows hs ht with ht|rfl
    · obtain ⟨hl,hn⟩ := hp.led t ht
      exact ⟨hl.grows (he.grows.trans he'.grows),hn⟩
    · exact ⟨hlive.grows he'.grows,fun h => hA h rfl⟩

/-- The steps to the first goal from a new state, after the step that discovered it. -/
theorem first_before {g h k : SearchGraph} {e : StepId} {x : SearchStep} {r : Reduced}
    {es : List StepId} (hp : g.Pending rules q₀ A s) (hgoal : g.isGoal s = false)
    (hq : g.Shows s q) (hg : g.Extends s h) (ha : Added s g h e x) (hx : ¬g.Live x.target)
    (hr : h.Shows x.target r.query) (hcarries : x.Carries rules q r.query)
    (hlater : s.index<x.target.index) (hh : h.Extends x.target k)
    (hF : ∀ {t}, h.Live t → ¬(t = x.target ∨ A t) → F t)
    (hl : k.First rules (fun t => t = x.target ∨ A t) F x.target es) :
    k.First rules A F s (e :: es) := by
  have hne : s ≠ x.target := fun h => hx (h ▸ hq.live)
  obtain ⟨a,hsa,rfl⟩ := (hq.grows hg.grows).grows hh.grows
  obtain ⟨b,hb,hbr⟩ := hr.grows hh.grows
  rw [← hbr] at hcarries
  have hout : k.out s = g.out s ++ e :: [] := by
    rw [hh.other (hq.live.grows hg.grows) hne]
    exact ha.last
  refine ⟨.step ?_ hout (hh.grows.step ha.found) ha.source
    (fun f hf y hy => ?_) hsa hb hcarries hlater hl.leads,hl.shut,fun ht hA => hl.apart ht (.inr hA)⟩
  · rw [isGoal_grows (hq.live.grows hg.grows) hh.grows,isGoal_grows hq.live hg.grows]
    exact hgoal
  · -- What the state led to before was finished.
    obtain ⟨st,hst⟩ := hq.live
    have hf' := hf
    rw [out_of_some hst] at hf'
    obtain ⟨z,hz,-⟩ := (hp.kept.faithful.listed hst).mp hf'
    have hsame := (hg.grows.trans hh.grows).step hz
    rw [hy] at hsame
    cases hsame
    obtain ⟨hlive,hfree⟩ := hp.led y.target (List.mem_filterMap.mpr ⟨f,hf,by rw [target?,hz]; rfl⟩)
    exact hF (hlive.grows hg.grows) (not_or.mpr ⟨fun he => hx (he ▸ hlive),hfree⟩)

/-- Searches from a state agree up to the first goal. -/
def Agrees (rules : List Rule) (config : SearchConfig) (q₀ : Query) (depth : Nat) : Prop :=
  ∀ A s q p o p', p.graph.Pending rules q₀ A s → p.graph.Shows s q →
    expand rules config depth s p = .ok o p' →
    (o = .exhausted → expand rules .standard depth s p = .ok .exhausted p' ∧
      p'.graph.Shut rules fun t => p'.graph.Live t ∧ (A t → t = s)) ∧
    (o = .solved → ∃ p₁, expand rules .standard depth s p = .ok .solved p₁ ∧
      Found rules q₀ A s p.graph p₁ p')

theorem explore_agree (hd : Agrees rules config q₀ depth) {vertex : ItemId} {rule : Rule}
    {a : Application} {as : List Application} (hv : vertex ∈ q.vertices .whole)
    (hr : rule ∈ rules) (has : rule.applications q vertex = .ok as) (ha : a ∈ as)
    (hgoal : q.isConsolidated = false) :
    Agree rules q₀ A s q (fun g => g.Tried s vertex rule a)
      (explore rules config depth s q vertex rule a)
      (explore rules .standard depth s q vertex rule a) := by
  intro p o p' hp hq h
  have haimless : p.graph.isGoal s = false := by
    obtain ⟨st,hst,rfl⟩ := hq
    rw [isGoal,hst]
    exact hgoal
  rw [explore,bind_eq_ok] at h
  obtain ⟨target,p₁,hred,h⟩ := h
  obtain ⟨hk₁,he₁⟩ := reduce_continues hv hr has ha p target p₁ hp.kept hq hred
  obtain ⟨e,x,hadd,⟨hxv,hxr,hxa⟩,hcases⟩ := reduce_added hq.live hred
  have htried : p₁.graph.Tried s vertex rule a := ⟨e,x,hadd.found,hadd.source,hxv,hxr,hxa⟩
  have hstd : explore rules .standard depth s q vertex rule a p =
      pursue rules .standard depth target p₁ := by
    rw [explore,bind_of_ok hred]
  rcases hcases with ⟨rfl,hlive,hreach,hsame⟩|⟨rfl,hlater,hout,⟨r,happ,hres,hshows⟩,hsame⟩
  · cases h
    exact ⟨fun _ => ⟨hstd,pending_known hp hk₁ he₁ hadd hlive hreach hsame,htried⟩,nofun⟩
  · rw [pursue,bind_of_ok (get_apply p₁)] at h
    split at h
    · cases h
      exact ⟨nofun,nofun⟩
    · have hnew : ¬p.graph.Live x.target := (reduce_new_live hred).1
      have hp₁ := pending_new hp hk₁ he₁ hadd hnew hout hsame
      have hstd' : explore rules .standard depth s q vertex rule a p =
          expand rules .standard depth x.target p₁ := hstd
      obtain ⟨hk',he'⟩ := expand_continues rules config q₀ depth _ _ p₁ o p' hk₁ hshows h
      obtain ⟨hex,hsol⟩ := hd _ _ _ p₁ o p' hp₁ hshows h
      refine ⟨fun ho => ?_,fun ho => ?_⟩
      · obtain ⟨h₂,hshut⟩ := hex ho
        exact ⟨hstd'.trans h₂,pending_back hp hk' hk₁ he₁ hadd hnew he' hshows.live hshut,
          htried.grows he'.grows⟩
      · obtain ⟨p₂,h₂,hfound⟩ := hsol ho
        obtain ⟨F,es,hF,hfirst,hfirst'⟩ := hfound.first
        have he₂ := (expand_continues rules .standard q₀ depth _ _ p₁ _ p₂ hk₁ hshows h₂).2
        have hcarries : x.Carries rules q r.query := by
          refine ⟨hxr ▸ hr,hxv ▸ hv,⟨as,?_,hxa ▸ ha⟩,r.output,?_,hres⟩
          · rw [hxr,hxv]
            exact has
          · rw [hxr,hxa]
            exact happ
        have hbefore : ∀ {k : SearchGraph}, p₁.graph.Extends x.target k →
            k.First rules (fun t => t = x.target ∨ A t) F x.target es →
              k.First rules A F s (e :: es) := fun hk hl =>
          first_before hp haimless hq he₁ hadd hnew hshows hcarries hlater hk hF hl
        refine ⟨p₂,hstd'.trans h₂,hfound.kept,hfound.grows,F,e :: es,fun ht hA => ?_,
          hbefore he₂ hfirst,hbefore he' hfirst'⟩
        exact hF (ht.grows he₁.grows) (not_or.mpr ⟨fun he => hnew (he ▸ ht),hA⟩)

/-- Everything that one rule lists at a vertex agrees. -/
theorem ask_agree (hd : Agrees rules config q₀ depth) {vertex : ItemId} {rule : Rule}
    (hv : vertex ∈ q.vertices .whole) (hr : rule ∈ rules) (hgoal : q.isConsolidated = false) :
    Agree rules q₀ A s q
      (fun g => ∃ as, rule.applications q vertex = .ok as ∧ ∀ a ∈ as, g.Tried s vertex rule a)
      (ask rules config depth s q vertex rule) (ask rules .standard depth s q vertex rule) := by
  intro p o p' hp hq h
  obtain ⟨as,has,h⟩ := tryAll_of_ask h
  have hstd : ask rules .standard depth s q vertex rule p =
      tryAll .standard (explore rules .standard depth s q vertex rule) .exhausted as p := by
    rw [ask,has]
    rfl
  obtain ⟨hex,hsol⟩ := tryAll_agree (T:=fun a g => g.Tried s vertex rule a)
    (fun ht hg => ht.grows hg)
    (fun a ha => explore_continues (expand_continues rules config q₀ depth) hv hr has ha)
    (fun a ha => explore_agree hd hv hr has ha hgoal) p o p' hp hq h
  rw [hstd]
  exact ⟨fun ho => (hex ho).imp id fun h => h.imp id fun h => ⟨_,has,h⟩,hsol⟩

/-- Searches from a state agree up to the first goal, however they are configured. -/
theorem expand_agree (rules : List Rule) (config : SearchConfig) (q₀ : Query) :
    ∀ depth, Agrees rules config q₀ depth
  | 0 => by
    intro A s q p o p' _ _ h
    cases h
  | depth+1 => by
    intro A s q p o p' hp hq h
    obtain ⟨st,hs,rfl⟩ := hq
    rw [expand_succ rules config depth hs] at h
    rw [expand_succ rules .standard depth hs]
    split at h
    · rename_i hgoal
      cases h
      rw [if_pos hgoal]
      have hfirst : p.graph.First rules A (fun t => p.graph.Live t ∧ ¬A t) s [] :=
        ⟨.goal (by rw [isGoal,hs]; exact hgoal),hp.shut,fun h => h.2⟩
      exact ⟨nofun,fun _ => ⟨p,rfl,hp.kept,.refl _,_,[],fun ht hA => ⟨ht,hA⟩,hfirst,hfirst⟩⟩
    · rename_i hgoal
      have hgoal' : st.query.isConsolidated = false := Bool.eq_false_iff.mpr hgoal
      rw [if_neg hgoal]
      have hd := expand_agree rules config q₀ depth
      have hc := expand_continues rules config q₀ depth
      let T : ItemId → Rule → SearchGraph → Prop := fun vertex rule g =>
        ∃ as, rule.applications st.query vertex = .ok as ∧ ∀ a ∈ as, g.Tried s vertex rule a
      have hT : ∀ {vertex rule g h}, T vertex rule g → g.Grows h → T vertex rule h :=
        fun ht hg => ht.imp fun _ h => h.imp id fun h a ha => (h a ha).grows hg
      obtain ⟨hex,hsol⟩ := tryAll_agree (T:=fun vertex g => ∀ rule ∈ rules, T vertex rule g)
        (fun ht hg rule hr => hT (ht rule hr) hg)
        (fun vertex hv => tryAll_continues (fun rule hr => ask_continues hc hv hr) .exhausted)
        (fun vertex hv => tryAll_agree (T:=T vertex) hT (fun rule hr => ask_continues hc hv hr)
          fun rule hr => ask_agree hd hv hr hgoal') p o p' hp ⟨st,hs,rfl⟩ h
      refine ⟨fun ho => ?_,hsol⟩
      obtain ⟨h',hp',htried⟩ := hex ho
      have hq' : p'.graph.Shows s st.query :=
        Shows.grows ⟨st,hs,rfl⟩ (expand_continues rules config q₀ (depth+1) s st.query p o p'
          hp.kept ⟨st,hs,rfl⟩ (by rw [expand_succ rules config depth hs,if_neg hgoal]; exact h)).2.grows
      refine ⟨h',hp'.finished hq' hgoal' fun st' hst' => ?_⟩
      obtain ⟨st'',hst'',hqe⟩ := hq'
      rw [hst'] at hst''
      cases hst''
      rw [hqe]
      exact fun vertex hv rule hr => htried vertex hv rule hr

end Search

end GraphPattern
