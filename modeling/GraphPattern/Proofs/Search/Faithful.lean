import GraphPattern.Proofs.Search.Graph
import GraphPattern.Proofs.Step

/-!
# Faithful search graphs

What a search keeps true of its graph, whatever the rules: every step carries out a rule, every
state but the start was discovered by a step from an earlier state, and no two states have the same
content. What rules preserve therefore holds of every state.
-/

namespace GraphPattern

/-- The step carries out one of the rules, from the first query to the second one. -/
structure SearchStep.Carries (rules : List Rule) (x : SearchStep) (q q' : Query) : Prop where
  /-- The rule is one of those that are given. -/
  rule : x.rule ∈ rules
  /-- It was asked about a vertex of the query. -/
  vertex : x.vertex ∈ q.vertices .whole
  /-- It listed the application. -/
  listed : ∃ as, x.rule.applications q x.vertex = .ok as ∧ x.application ∈ as
  /-- It reduced the query. -/
  applied : ∃ out, x.rule.apply q x.application = .ok ⟨q',out⟩ ∧
    Reduced.result ⟨q',out⟩ = .ok x.result

namespace SearchGraph

open Step

/-- What a search with given rules from a given query keeps true of its graph. -/
structure Faithful (rules : List Rule) (q : Query) (g : SearchGraph) : Prop where
  /-- The search sets out from the query. -/
  start : ∃ st, g.state? .start = some st ∧ st.query = q
  /-- A step leads to the state with the content that came out. -/
  step : ∀ {e x}, g.step? e = some x → ∃ s t q', g.state? x.source = some s ∧
    g.state? x.target = some t ∧ x.Carries rules s.query q' ∧ q'.content = t.query.content
  /-- A state lists the steps that leave it. -/
  listed : ∀ {s st e}, g.state? s = some st →
    (e ∈ st.out ↔ ∃ x, g.step? e = some x ∧ x.source = s)
  /-- A state came out of a step from an earlier one. -/
  discovered : ∀ {s st}, g.state? s = some st → s ≠ .start → ∃ e x p, g.step? e = some x ∧
    x.target = s ∧ x.source.index<s.index ∧ g.state? x.source = some p ∧
    x.Carries rules p.query st.query
  /-- Contents tell states apart. -/
  distinct : ∀ {s t st st'}, g.state? s = some st → g.state? t = some st' →
    st.query.content = st'.query.content → s = t

variable {rules : List Rule} {q₀ : Query} {g : SearchGraph}

theorem Faithful.source_of_out (h : g.Faithful rules q₀) {s : StateId} {e : StepId}
    {x : SearchStep} (he : e ∈ g.out s) (hx : g.step? e = some x) : x.source = s := by
  cases hs : g.state? s with
  | none =>
    rw [out,hs] at he
    cases he
  | some st =>
    rw [out,hs] at he
    obtain ⟨y,hy,hsource⟩ := (h.listed hs).mp he
    rw [hx] at hy
    cases hy
    exact hsource

/-- The state that was reduced lists the step. -/
theorem Faithful.mem_out (h : g.Faithful rules q₀) {e : StepId} {x : SearchStep}
    (hx : g.step? e = some x) : e ∈ g.out x.source := by
  obtain ⟨st,-,-,hst,-⟩ := h.step hx
  rw [out,hst]
  exact (h.listed hst).mpr ⟨x,hx,rfl⟩

/-- What holds of the start and is kept by the rules holds of the query of every state. -/
theorem Faithful.preserved (h : g.Faithful rules q₀) {P : Query → Prop} (hstart : P q₀)
    (hstep : ∀ {x : SearchStep} {q q' : Query}, P q → x.Carries rules q q' → P q')
    {s : StateId} {st : SearchState} (hs : g.state? s = some st) : P st.query := by
  obtain ⟨i⟩ := s
  induction i using Nat.strongRecOn generalizing st with
  | _ i ih =>
    by_cases h0 : (⟨i⟩ : StateId) = .start
    · obtain ⟨st₀,hst₀,rfl⟩ := h.start
      rw [h0,hst₀] at hs
      cases hs
      exact hstart
    · obtain ⟨e,x,p,-,-,hlt,hp,hc⟩ := h.discovered hs h0
      exact hstep (ih x.source.index hlt hp) hc

theorem faithful_ofQuery (rules : List Rule) (q : Query) : (ofQuery q).Faithful rules q := by
  have hone : ∀ {s st}, (ofQuery q).state? s = some st → s = .start ∧ st = .ofQuery q := by
    intro s st hs
    have hlt : s.index<1 := state?_lt hs
    have hs0 : s = .start := congrArg StateId.mk (Nat.lt_one_iff.mp hlt)
    rw [hs0] at hs
    exact ⟨hs0,(Option.some.inj hs).symm⟩
  have hstep : ∀ e, (ofQuery q).step? e = none := fun _ => Array.getElem?_empty
  constructor
  · exact ⟨_,rfl,rfl⟩
  · intro e x he
    rw [hstep] at he
    cases he
  · intro s st e hs
    rw [(hone hs).2,hstep]
    exact ⟨fun h => absurd h List.not_mem_nil,fun ⟨_,h,_⟩ => nomatch h⟩
  · intro s st hs hne
    exact absurd (hone hs).1 hne
  · intro s t st st' hs ht _
    rw [(hone hs).1,(hone ht).1]

/-- The states of a graph after a step was added, with their lists of steps. -/
theorem state?_addStep_cases {x : SearchStep} {s : StateId} {st : SearchState}
    (hs : (g.addStep x).state? s = some st) : ∃ st', g.state? s = some st' ∧
      st.query = st'.query ∧
        st.out = if s = x.source then st'.out ++ [⟨g.steps.size⟩] else st'.out := by
  rw [state?_addStep] at hs
  obtain ⟨st',hst',rfl⟩ := Option.map_eq_some_iff.mp hs
  refine ⟨st',hst',?_⟩
  split <;> exact ⟨rfl,rfl⟩

theorem state?_addStep_of {x : SearchStep} {s : StateId} {st : SearchState}
    (hs : g.state? s = some st) : ∃ st', (g.addStep x).state? s = some st' ∧
      st'.query = st.query :=
  (grows_addStep g x).state hs

/-- The steps of a graph after a step was added. -/
theorem step?_addStep_cases {x y : SearchStep} {e : StepId}
    (he : (g.addStep x).step? e = some y) :
    (e = ⟨g.steps.size⟩ ∧ y = x) ∨ (e ≠ ⟨g.steps.size⟩ ∧ g.step? e = some y) := by
  rw [step?_addStep] at he
  split at he
  · rename_i h
    exact .inl ⟨h,(Option.some.inj he).symm⟩
  · rename_i h
    exact .inr ⟨h,he⟩

/-- The list of steps of a state, after a step was added. -/
theorem listed_addStep {x : SearchStep} (hl : ∀ {s st e}, g.state? s = some st →
      (e ∈ st.out ↔ ∃ y, g.step? e = some y ∧ y.source = s)) {s : StateId} {st : SearchState}
    {e : StepId} (hs : (g.addStep x).state? s = some st) :
    e ∈ st.out ↔ ∃ y, (g.addStep x).step? e = some y ∧ y.source = s := by
  obtain ⟨st',hst',-,hout⟩ := state?_addStep_cases hs
  have hold := hl (e:=e) hst'
  have hnew : g.step? ⟨g.steps.size⟩ = none := Array.getElem?_eq_none (Nat.le_refl _)
  by_cases he : e = ⟨g.steps.size⟩
  · -- The new step has a number that no list knows yet.
    have hnot : e ∉ st'.out := fun hm => by
      obtain ⟨y,hy,-⟩ := hold.mp hm
      rw [he,hnew] at hy
      cases hy
    rw [step?_addStep,if_pos he,hout]
    split
    · rename_i hsx
      exact ⟨fun _ => ⟨x,rfl,hsx.symm⟩,fun _ => List.mem_append_right _ (he ▸ List.mem_cons_self)⟩
    · rename_i hsx
      refine ⟨fun hm => absurd hm hnot,fun ⟨y,hy,hys⟩ => ?_⟩
      cases hy
      exact absurd hys.symm hsx
  · rw [step?_addStep,if_neg he,← hold,hout]
    split
    · rw [List.mem_append,List.mem_singleton]
      exact ⟨fun hm => hm.resolve_right he,.inl⟩
    · exact Iff.rfl

/-- A step to a known state keeps the graph faithful. -/
theorem Faithful.addStep (h : g.Faithful rules q₀) {x : SearchStep} {q' : Query}
    {s t : SearchState} (hs : g.state? x.source = some s) (ht : g.state? x.target = some t)
    (hx : x.Carries rules s.query q') (hc : q'.content = t.query.content) :
    (g.addStep x).Faithful rules q₀ := by
  constructor
  · obtain ⟨st,hst,hq⟩ := h.start
    obtain ⟨st',hst',hq'⟩ := state?_addStep_of (x:=x) hst
    exact ⟨st',hst',hq'.trans hq⟩
  · intro e y he
    have hold : ∃ s t q', g.state? y.source = some s ∧ g.state? y.target = some t ∧
        y.Carries rules s.query q' ∧ q'.content = t.query.content := by
      rcases step?_addStep_cases he with ⟨-,rfl⟩|⟨-,he⟩
      · exact ⟨s,t,q',hs,ht,hx,hc⟩
      · exact h.step he
    obtain ⟨s,t,q',hs,ht,hy,hc⟩ := hold
    obtain ⟨s',hs',hsq⟩ := state?_addStep_of (x:=x) hs
    obtain ⟨t',ht',htq⟩ := state?_addStep_of (x:=x) ht
    exact ⟨s',t',q',hs',ht',hsq ▸ hy,htq ▸ hc⟩
  · exact fun hs => listed_addStep h.listed hs
  · intro s st hs hne
    obtain ⟨st',hst',hq,-⟩ := state?_addStep_cases hs
    obtain ⟨e,y,p,he,hys,hlt,hp,hy⟩ := h.discovered hst' hne
    obtain ⟨p',hp',hpq⟩ := state?_addStep_of (x:=x) hp
    exact ⟨e,y,p',(grows_addStep g x).step he,hys,hlt,hp',hpq ▸ hq ▸ hy⟩
  · intro s t st st' hs ht hc
    obtain ⟨s',hs',hsq,-⟩ := state?_addStep_cases hs
    obtain ⟨t',ht',htq,-⟩ := state?_addStep_cases ht
    exact h.distinct hs' ht' (hsq ▸ htq ▸ hc)

/-- A step to a state with a new content keeps the graph faithful. -/
theorem Faithful.addNew (h : g.Faithful rules q₀) {x : SearchStep} {q' : Query} {s : SearchState}
    (hs : g.state? x.source = some s) (ht : x.target = ⟨g.states.size⟩)
    (hx : x.Carries rules s.query q') (hnew : g.find? q'.content = none) :
    ((g.addState q').addStep x).Faithful rules q₀ := by
  have hgrows := (grows_addState g q').trans (grows_addStep (g.addState q') x)
  have hsource := state?_lt hs
  -- A state of the new graph is the one that was added or an old one.
  have back : ∀ {s st}, ((g.addState q').addStep x).state? s = some st →
      (s = ⟨g.states.size⟩ ∧ st.query = q') ∨
        (s ≠ ⟨g.states.size⟩ ∧ ∃ st', g.state? s = some st' ∧ st.query = st'.query) := by
    intro s st hs
    obtain ⟨st',hst',hq,-⟩ := state?_addStep_cases hs
    rw [state?_addState] at hst'
    split at hst'
    · rename_i h
      cases hst'
      exact .inl ⟨h,hq⟩
    · rename_i h
      exact .inr ⟨h,st',hst',hq⟩
  obtain ⟨s',hs',hsq⟩ := hgrows.state hs
  have hxt : ∃ t, ((g.addState q').addStep x).state? x.target = some t ∧ t.query = q' := by
    have hfound : (g.addState q').state? x.target = some (.ofQuery q') := by
      rw [state?_addState,if_pos ht]
    obtain ⟨t,ht',hq⟩ := state?_addStep_of (x:=x) hfound
    exact ⟨t,ht',hq⟩
  have hold : ∀ {s st}, g.state? s = some st → st.query.content ≠ q'.content := by
    intro s st hs hc
    exact find?_none hnew hs (st.content_eq.trans hc)
  constructor
  · obtain ⟨st,hst,hq⟩ := h.start
    obtain ⟨st',hst',hq'⟩ := hgrows.state hst
    exact ⟨st',hst',hq'.trans hq⟩
  · intro e y he
    rcases step?_addStep_cases he with ⟨-,rfl⟩|⟨-,he⟩
    · obtain ⟨t,ht',hq⟩ := hxt
      exact ⟨s',t,q',hs',ht',hsq ▸ hx,by rw [hq]⟩
    · obtain ⟨a,b,p,ha,hb,hy,hc⟩ := h.step he
      obtain ⟨a',ha',haq⟩ := hgrows.state ha
      obtain ⟨b',hb',hbq⟩ := hgrows.state hb
      exact ⟨a',b',p,ha',hb',haq ▸ hy,hbq ▸ hc⟩
  · refine fun hs => listed_addStep (fun {s st e} hs => ?_) hs
    rw [state?_addState] at hs
    split at hs
    · rename_i hsn
      cases hs
      refine ⟨fun h => absurd h List.not_mem_nil,fun ⟨y,hy,hys⟩ => ?_⟩
      obtain ⟨a,-,-,ha,-⟩ := h.step hy
      rw [hys,hsn] at ha
      exact absurd (state?_lt ha) (Nat.lt_irrefl _)
    · exact h.listed hs
  · intro a st ha hne
    rcases back ha with ⟨rfl,hq⟩|⟨-,st',hst',hq⟩
    · refine ⟨⟨g.steps.size⟩,x,s',?_,ht,hsource,hs',hsq ▸ hq ▸ hx⟩
      rw [step?_addStep]
      exact if_pos rfl
    · obtain ⟨e,y,p,he,hya,hlt,hp,hy⟩ := h.discovered hst' hne
      obtain ⟨p',hp',hpq⟩ := hgrows.state hp
      exact ⟨e,y,p',hgrows.step he,hya,hlt,hp',hpq ▸ hq ▸ hy⟩
  · intro a b st st' ha hb hc
    rcases back ha with ⟨rfl,hqa⟩|⟨-,sa,hsa,hqa⟩
    · rcases back hb with ⟨rfl,-⟩|⟨-,sb,hsb,hqb⟩
      · rfl
      · exact absurd (hqb ▸ hqa ▸ hc.symm) (hold hsb)
    · rcases back hb with ⟨rfl,hqb⟩|⟨-,sb,hsb,hqb⟩
      · exact absurd (hqa ▸ hqb ▸ hc) (hold hsa)
      · exact h.distinct hsa hsb (hqa ▸ hqb ▸ hc)

end SearchGraph

end GraphPattern
