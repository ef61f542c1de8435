import GraphPattern.Proofs.Plan
import GraphPattern.Proofs.Search.First

/-!
# Searching with arbitrary rules

Whatever the rules are, a search keeps its graph free of cycles: before a step to a known state is
added, the marks show that no path leads from that state to the one that was reduced, and a new
state has no steps yet. The counters tell how often a known state was hit. So a search ends with a
graph whose states are told apart by their contents, all of which can be reached, or with an error
of a rule, or because a reduction led back to where it had come from.
-/

namespace GraphPattern

open Step

namespace SearchGraph

variable {rules : List Rule} {q₀ : Query} {g h : SearchGraph} {s t : StateId} {x : SearchStep}
  {es : List StepId}

/-! ## Cycles -/

theorem acyclic_ofQuery (q : Query) : (ofQuery q).Acyclic := by
  intro s es hp
  cases hp with
  | nil => rfl
  | cons found => cases found

/-- Where the second graph has no other steps, its paths are those of the first one. -/
theorem Path.of_step (hp : h.Path s es t) (hstep : ∀ {e x}, h.step? e = some x → g.step? e = some x) :
    g.Path s es t := by
  induction hp with
  | nil s => exact .nil s
  | cons found source _ ih => exact .cons (hstep found) source ih

theorem Acyclic.addState (hg : g.Acyclic) (q : Query) : (g.addState q).Acyclic :=
  fun _ _ hp => hg _ _ (hp.of_step id)

/-- A path in a graph to which a step was added is an old one, or old paths lead to the source of
the step and away from its target. -/
theorem path_addStep (hp : (g.addStep x).Path s es t) :
    g.Path s es t ∨ (∃ fs, g.Path s fs x.source) ∧ ∃ fs, g.Path x.target fs t := by
  induction hp with
  | nil s => exact .inl (.nil s)
  | cons found source _ ih =>
    rcases step?_addStep_cases found with ⟨-,rfl⟩|⟨-,hold⟩
    · refine .inr ⟨⟨[],source ▸ .nil _⟩,?_⟩
      rcases ih with hrest|⟨-,hrest⟩
      · exact ⟨_,hrest⟩
      · exact hrest
    · rcases ih with hrest|⟨⟨fs,hfs⟩,hrest⟩
      · exact .inl (.cons hold source hrest)
      · exact .inr ⟨⟨_,.cons hold source hfs⟩,hrest⟩

/-- A step closes no cycle unless a path leads from its target to its source. -/
theorem Acyclic.addStep (hg : g.Acyclic) (hback : ∀ fs, ¬g.Path x.target fs x.source) :
    (g.addStep x).Acyclic := by
  intro s es hp
  rcases path_addStep hp with hold|⟨⟨fs,hfs⟩,⟨fs',hfs'⟩⟩
  · exact hg _ _ hold
  · exact absurd (hfs'.append hfs) (hback _)

/-- No step leaves what is not a state. -/
theorem Faithful.path_of_not_live (hf : g.Faithful rules q₀) (hs : ¬g.Live s)
    (hp : g.Path s es t) : s = t := by
  cases hp with
  | nil => rfl
  | cons found source =>
    obtain ⟨st,-,-,hst,-⟩ := hf.step found
    exact absurd ⟨st,source ▸ hst⟩ hs

/-- A path leads from the start to every state, and it is no longer than the number of the state. -/
theorem Faithful.path_start (hf : g.Faithful rules q₀) (hs : g.Live s) :
    ∃ es, g.Path .start es s ∧ es.length ≤ s.index := by
  obtain ⟨i⟩ := s
  induction i using Nat.strongRecOn with
  | _ i ih =>
    by_cases h0 : (⟨i⟩ : StateId) = .start
    · exact ⟨[],h0 ▸ .nil _,Nat.zero_le _⟩
    · obtain ⟨st,hst⟩ := hs
      obtain ⟨e,x,p,he,htarget,hlt,hp,-⟩ := hf.discovered hst h0
      obtain ⟨es,hes,hlen⟩ := ih x.source.index hlt ⟨p,hp⟩
      refine ⟨es ++ [e],hes.append (.cons he rfl (htarget ▸ .nil _)),?_⟩
      rw [List.length_append,List.length_singleton]
      exact Nat.lt_of_le_of_lt hlen hlt

/-! ## Hits -/

/-- Whether a step led to a state that was known before: the start, or one to which an earlier step
leads. -/
def hitsKnown (g : SearchGraph) (e : StepId) : Bool :=
  (g.target? e).any fun t =>
    t = .start || (List.range e.index).any fun i => g.target? ⟨i⟩ = some t

/-- The number of steps that led to a known state. -/
def knownHits (g : SearchGraph) : Nat :=
  (List.range g.steps.size).countP fun i => g.hitsKnown ⟨i⟩

@[simp] theorem size_steps_addStep (g : SearchGraph) (x : SearchStep) :
    (g.addStep x).steps.size = g.steps.size+1 := Array.size_push _

theorem target?_addStep_old {i : Nat} (hi : i<g.steps.size) :
    (g.addStep x).target? ⟨i⟩ = g.target? ⟨i⟩ := by
  have hne : (⟨i⟩ : StepId) ≠ ⟨g.steps.size⟩ := fun h => Nat.ne_of_lt hi (congrArg StepId.index h)
  rw [target?,target?,step?_addStep,if_neg hne]

theorem target?_addStep_new (g : SearchGraph) (x : SearchStep) :
    (g.addStep x).target? ⟨g.steps.size⟩ = some x.target := by
  rw [target?,step?_addStep,if_pos rfl]
  rfl

/-- Whether an old step hit a known state does not change. -/
theorem hitsKnown_addStep_old {i : Nat} (hi : i<g.steps.size) :
    (g.addStep x).hitsKnown ⟨i⟩ = g.hitsKnown ⟨i⟩ := by
  have hany : ∀ t : StateId, ((List.range i).any fun j => (g.addStep x).target? ⟨j⟩ = some t) =
      (List.range i).any fun j => g.target? ⟨j⟩ = some t := fun t => by
    refine Bool.eq_iff_iff.mpr ?_
    simp only [List.any_eq_true,List.mem_range]
    refine exists_congr fun j => and_congr_right fun hj => ?_
    rw [target?_addStep_old (Nat.lt_trans hj hi)]
  simp only [hitsKnown,target?_addStep_old hi,hany]

theorem hitsKnown_addStep_new (g : SearchGraph) (x : SearchStep) :
    (g.addStep x).hitsKnown ⟨g.steps.size⟩ = true ↔
      x.target = .start ∨ ∃ i<g.steps.size, g.target? ⟨i⟩ = some x.target := by
  have hold : (∃ i<g.steps.size, (g.addStep x).target? ⟨i⟩ = some x.target) ↔
      ∃ i<g.steps.size, g.target? ⟨i⟩ = some x.target :=
    exists_congr fun i => and_congr_right fun hi => by rw [target?_addStep_old hi]
  simp only [hitsKnown,target?_addStep_new,Option.any_some,Bool.or_eq_true,decide_eq_true_eq,
    List.any_eq_true,List.mem_range,hold]

theorem knownHits_addStep (g : SearchGraph) (x : SearchStep) : (g.addStep x).knownHits =
    g.knownHits + if (g.addStep x).hitsKnown ⟨g.steps.size⟩ then 1 else 0 := by
  rw [knownHits,size_steps_addStep,List.range_succ,List.countP_append,knownHits]
  congr 1
  · refine List.countP_congr fun i hi => ?_
    rw [hitsKnown_addStep_old (List.mem_range.mp hi)]
  · rw [List.countP_singleton]

theorem knownHits_addState (g : SearchGraph) (q : Query) :
    (g.addState q).knownHits = g.knownHits := rfl

/-- A step to a state of the graph hits a known one. -/
theorem Faithful.hitsKnown_known (hf : g.Faithful rules q₀) (ht : g.Live x.target) :
    (g.addStep x).hitsKnown ⟨g.steps.size⟩ = true := by
  refine (hitsKnown_addStep_new g x).mpr ?_
  by_cases h0 : x.target = .start
  · exact .inl h0
  · obtain ⟨st,hst⟩ := ht
    obtain ⟨⟨i⟩,y,-,hy,hyt,-⟩ := hf.discovered hst h0
    exact .inr ⟨i,step?_lt hy,by rw [target?,hy,Option.map_some,hyt]⟩

/-- A step to a state that is not in the graph yet hits none. -/
theorem Faithful.hitsKnown_new (hf : g.Faithful rules q₀) (ht : ¬g.Live x.target) :
    (g.addStep x).hitsKnown ⟨g.steps.size⟩ = false := by
  rw [← Bool.not_eq_true,hitsKnown_addStep_new]
  rintro (h0|⟨i,-,hi⟩)
  · obtain ⟨st,hst,-⟩ := hf.start
    exact ht ⟨st,h0 ▸ hst⟩
  · obtain ⟨y,hy,hyt⟩ := Option.map_eq_some_iff.mp hi
    obtain ⟨-,st,-,-,hst,-⟩ := hf.step hy
    exact ht ⟨st,hyt ▸ hst⟩

end SearchGraph

namespace Search

open SearchGraph

variable {rules : List Rule} {config : SearchConfig} {q₀ : Query} {p : SearchProgress}
  {s : StateId} {q : Query} {vertex : ItemId} {rule : Rule} {a : Application}

/-! ## What every part of a search does -/

/-- What a search keeps true of its progress, whatever the rules. -/
structure Sound (rules : List Rule) (q₀ : Query) (p : SearchProgress) : Prop where
  /-- The graph is faithful, and its steps are counted. -/
  kept : p.graph.Kept rules q₀
  /-- It has no cycle. -/
  acyclic : p.graph.Acyclic
  /-- Every step was counted. -/
  applications : p.counters.applications = p.graph.steps.size
  /-- Every state but the start was counted. -/
  created : p.counters.statesCreated+1 = p.graph.states.size
  /-- The steps that hit a known state were counted. -/
  hits : p.counters.dedupHits = p.graph.knownHits
  /-- A step leads to a known state or to a new one. -/
  total : p.counters.dedupHits+p.counters.statesCreated = p.counters.applications

theorem sound_ofQuery (rules : List Rule) (q : Query) : Sound rules q ⟨.ofQuery q,.zero⟩ where
  kept := ⟨faithful_ofQuery rules q,tallied_ofQuery q⟩
  acyclic := acyclic_ofQuery q
  applications := rfl
  created := rfl
  hits := rfl
  total := rfl

/-- Why a search fails. -/
inductive Fault (rules : List Rule) (g : SearchGraph) : Error → Prop
  /-- A rule refused to list its applications at a state. -/
  | applications {s : StateId} {st : SearchState} {rule : Rule} {vertex : ItemId} {e : Error}
    (found : g.state? s = some st) (given : rule ∈ rules) (asked : vertex ∈ st.query.vertices .whole)
    (refused : rule.applications st.query vertex = .error e) : Fault rules g e
  /-- A rule refused an application that it had listed. -/
  | apply {s : StateId} {st : SearchState} {rule : Rule} {vertex : ItemId} {a : Application}
    {as : List Application} {e : Error} (found : g.state? s = some st) (given : rule ∈ rules)
    (asked : vertex ∈ st.query.vertices .whole)
    (answered : rule.applications st.query vertex = .ok as) (listed : a ∈ as)
    (refused : rule.apply st.query a = .error e) : Fault rules g e
  /-- The vertex that a rule answered with is not in the query that it answered with. -/
  | result {s : StateId} {st : SearchState} {rule : Rule} {vertex : ItemId} {a : Application}
    {as : List Application} {r : Reduced} {e : Error} (found : g.state? s = some st)
    (given : rule ∈ rules) (asked : vertex ∈ st.query.vertices .whole)
    (answered : rule.applications st.query vertex = .ok as) (listed : a ∈ as)
    (applied : rule.apply st.query a = .ok r) (refused : r.result = .error e) : Fault rules g e
  /-- A reduction came out at the content of the state that was reduced, or of one from which a path
  leads to it. -/
  | leadsBack {x : SearchStep} {st known : SearchState} {q : Query} {es : List StepId}
    (found : g.state? x.source = some st) (carried : x.Carries rules st.query q)
    (back : g.state? x.target = some known) (same : q.sameContent known.query = true)
    (path : g.Path x.target es x.source) :
    Fault rules g (.invariant (.leadsBack x.text x.source x.target))
  /-- A state was found deeper down than the search goes. -/
  | tooDeep (s : StateId) : Fault rules g (.invariant (.tooDeep s))

/-- How a part of a search ends that began with a progress: soundly, with a graph that has grown,
or with a fault in a faithful graph without cycles. -/
def Proceeds {α : Type} (rules : List Rule) (q₀ : Query) (x : SearchAction α) (p : SearchProgress) :
    Prop :=
  Ends x p (fun _ p' => Sound rules q₀ p' ∧ p.graph.Grows p'.graph) fun e p' =>
    p'.graph.Faithful rules q₀ ∧ p'.graph.Acyclic ∧ Fault rules p'.graph e

/-- A reduction that hits a known state keeps the progress sound if no path leads back. -/
theorem Sound.known (hp : Sound rules q₀ p) {x : SearchStep} {s t : SearchState} {q' : Query}
    (hs : p.graph.state? x.source = some s) (ht : p.graph.state? x.target = some t)
    (hx : x.Carries rules s.query q') (hc : q'.content = t.query.content)
    (hback : ∀ es, ¬p.graph.Path x.target es x.source) :
    Sound rules q₀ ⟨p.graph.addStep x,{ p.counters with
      applications := p.counters.applications+1
      dedupHits := p.counters.dedupHits+1 }⟩ where
  kept := ⟨hp.kept.faithful.addStep hs ht hx hc,hp.kept.tallied.addStep (state?_lt hs)⟩
  acyclic := hp.acyclic.addStep hback
  applications := by rw [size_steps_addStep,hp.applications]
  created := by rw [size_addStep,hp.created]
  hits := by
    rw [knownHits_addStep,if_pos (hp.kept.faithful.hitsKnown_known ⟨t,ht⟩),hp.hits]
  total := by
    have := hp.total
    simp only
    omega

/-- A reduction that discovers a state keeps the progress sound. -/
theorem Sound.new (hp : Sound rules q₀ p) {x : SearchStep} {s : SearchState} {q' : Query}
    (hs : p.graph.state? x.source = some s) (ht : x.target = ⟨p.graph.states.size⟩)
    (hx : x.Carries rules s.query q') (hnew : p.graph.find? q'.content = none) :
    Sound rules q₀ ⟨(p.graph.addState q').addStep x,{ p.counters with
      applications := p.counters.applications+1
      statesCreated := p.counters.statesCreated+1 }⟩ := by
  have hlive : ¬p.graph.Live x.target := fun h => by
    rw [ht] at h
    exact Nat.lt_irrefl _ (live_iff.mp h)
  have hne : x.target ≠ x.source := fun h => hlive (h ▸ ⟨s,hs⟩)
  -- No step leaves the new state yet, so no path leads from it to the old one.
  have hback : ∀ es, ¬(p.graph.addState q').Path x.target es x.source := fun es hpath =>
    hne (hp.kept.faithful.path_of_not_live hlive (hpath.of_step id))
  have hmiss : ((p.graph.addState q').addStep x).hitsKnown ⟨p.graph.steps.size⟩ = false := by
    rw [← hp.kept.faithful.hitsKnown_new hlive]
    rfl
  have htotal := hp.total
  exact {
    kept := ⟨hp.kept.faithful.addNew hs ht hx hnew,(hp.kept.tallied.addState q').addStep (by
      rw [size_addState]
      exact Nat.lt_succ_of_lt (state?_lt hs))⟩
    acyclic := (hp.acyclic.addState q').addStep hback
    applications := by rw [size_steps_addStep,hp.applications]; rfl
    created := by rw [size_addStep,size_addState,hp.created]
    hits := by
      rw [knownHits_addStep]
      simp only [knownHits_addState]
      rw [hp.hits,show (p.graph.addState q').steps.size = p.graph.steps.size from rfl,hmiss]
      rfl
    total := by
      simp only
      omega }

/-- A reduction that is listed at a state proceeds. -/
theorem reduce_proceeds {st : SearchState} (hp : Sound rules q₀ p)
    (hs : p.graph.state? s = some st) (hv : vertex ∈ st.query.vertices .whole) (hr : rule ∈ rules)
    {as : List Application} (has : rule.applications st.query vertex = .ok as) (ha : a ∈ as) :
    Proceeds rules q₀ (reduce s st.query vertex rule a) p := by
  cases happ : rule.apply st.query a with
  | error e =>
    refine .of_error (t:=⟨p.graph,{ p.counters with applications := p.counters.applications+1 }⟩) ?_
      ⟨hp.kept.faithful,hp.acyclic,.apply hs hr hv has ha happ⟩
    simp only [reduce,count,bind_apply,modify_apply,happ,lift_error]
  | ok r =>
    cases hres : r.result with
    | error e =>
      refine .of_error (t:=⟨p.graph,{ p.counters with applications := p.counters.applications+1 }⟩) ?_
        ⟨hp.kept.faithful,hp.acyclic,.result hs hr hv has ha happ hres⟩
      simp only [reduce,count,bind_apply,modify_apply,happ,lift_ok,hres,lift_error]
    | ok result =>
      have hcarries : ∀ t, (SearchStep.mk s t vertex rule a result).Carries rules st.query r.query :=
        fun t => ⟨hr,hv,⟨as,has,ha⟩,r.output,happ,hres⟩
      cases hf : p.graph.find? r.query.content with
      | none =>
        exact .of_ok (reduce_new happ hres hf) ⟨hp.new hs rfl (hcarries _) hf,
          (grows_addState _ _).trans (grows_addStep _ _)⟩
      | some known =>
        obtain ⟨kt,hkt,hkc⟩ := find?_some hf
        have hsame : r.query.content = kt.query.content := hkc.symm.trans kt.content_eq
        by_cases hreach : p.graph.reaches known s = true
        · obtain ⟨es,hes⟩ := path_of_reaches
            (fun he hx => hp.kept.faithful.source_of_out he hx) hreach
          refine .of_error
            (t:=⟨p.graph,{ p.counters with applications := p.counters.applications+1 }⟩) ?_
            ⟨hp.kept.faithful,hp.acyclic,.leadsBack (x:=⟨s,known,vertex,rule,a,result⟩) hs
              (hcarries known) hkt (decide_eq_true hsame) hes⟩
          simp only [reduce,count,bind_apply,modify_apply,happ,lift_ok,hres,get_apply,hf,hreach,
            if_true,throw_apply]
        · refine .of_ok (reduce_known happ hres hf (Bool.eq_false_iff.mpr hreach))
            ⟨hp.known hs hkt (hcarries known) hsame fun es hes => hreach ?_,grows_addStep _ _⟩
          exact hp.kept.path_reaches ⟨kt,hkt⟩ hes

theorem Proceeds.bind {α β : Type} {x : SearchAction α} {f : α → SearchAction β}
    (hx : Proceeds rules q₀ x p)
    (hf : ∀ b p', x p = .ok b p' → Sound rules q₀ p' → p.graph.Grows p'.graph →
      Proceeds rules q₀ (f b) p') : Proceeds rules q₀ (x >>= f) p := by
  rw [Proceeds,Ends,bind_apply]
  rw [Proceeds,Ends] at hx
  cases h : x p with
  | ok b p' =>
    rw [h] at hx
    refine (hf b p' h hx.1 hx.2).imp (fun _ _ hp => ⟨hp.1,hx.2.trans hp.2⟩) fun _ _ => id
  | error e p' =>
    rw [h] at hx
    exact hx

theorem Proceeds.pure {α : Type} {b : α} (hp : Sound rules q₀ p) :
    Proceeds rules q₀ (pure b : SearchAction α) p :=
  .of_ok rfl ⟨hp,.refl _⟩

/-- Alternatives proceed one after another if each of them does in every graph that has grown. -/
theorem tryAll_proceeds {α : Type} {explore : α → SearchAction SearchOutcome} {as : List α}
    (h : ∀ b ∈ as, ∀ p', Sound rules q₀ p' → p.graph.Grows p'.graph →
      Proceeds rules q₀ (explore b) p') (found : SearchOutcome) (hp : Sound rules q₀ p) :
    Proceeds rules q₀ (tryAll config explore found as) p := by
  induction as generalizing p found with
  | nil => exact .pure hp
  | cons b as ih =>
    refine (h b List.mem_cons_self p hp (.refl _)).bind fun o p' _ hp' hg => ?_
    have hrest := fun found => ih (p:=p')
      (fun c hc p'' hp'' hg' => h c (List.mem_cons_of_mem _ hc) p'' hp'' (hg.trans hg')) found hp'
    cases o with
    | capped => exact .pure hp'
    | solved =>
      by_cases hc : config.exhaustive = true
      · simp only [if_pos hc]
        exact hrest .solved
      · simp only [if_neg hc]
        exact .pure hp'
    | exhausted => exact hrest found

/-- Exploring a state proceeds, whatever the rules. The induction is on the depth that is left. -/
theorem expand_proceeds (rules : List Rule) (config : SearchConfig) (q₀ : Query) :
    ∀ (depth : Nat) (s : StateId) (p : SearchProgress), Sound rules q₀ p → p.graph.Live s →
      Proceeds rules q₀ (expand rules config depth s) p
  | 0, s, p, hp, _ => .of_error rfl ⟨hp.kept.faithful,hp.acyclic,.tooDeep s⟩
  | depth+1, s, p, hp, ⟨st,hs⟩ => by
    rw [Proceeds,Ends,expand_succ rules config depth hs]
    by_cases hgoal : st.isGoal = true
    · rw [if_pos hgoal]
      exact ⟨hp,.refl _⟩
    rw [if_neg hgoal]
    refine tryAll_proceeds (fun vertex hv p₁ hp₁ hg₁ => ?_) .exhausted hp
    refine tryAll_proceeds (fun rule hr p₂ hp₂ hg₂ => ?_) .exhausted hp₁
    obtain ⟨st₂,hs₂,hq₂⟩ := (hg₁.trans hg₂).state hs
    rw [← hq₂] at hv ⊢
    rw [ask]
    cases has : rule.applications st₂.query vertex with
    | error e => exact .of_error rfl ⟨hp₂.kept.faithful,hp₂.acyclic,.applications hs₂ hr hv has⟩
    | ok as =>
      refine tryAll_proceeds (fun a ha p₃ hp₃ hg₃ => ?_) .exhausted hp₂
      obtain ⟨st₃,hs₃,hq₃⟩ := hg₃.state hs₂
      rw [← hq₃] at hv has ⊢
      refine (reduce_proceeds hp₃ hs₃ hv hr has ha).bind fun target p₄ hred hp₄ _ => ?_
      cases target with
      | none => exact .pure hp₄
      | some t =>
        obtain ⟨-,q',hq'⟩ := reduce_new_live hred
        change Proceeds rules q₀ (ite _ _ _) p₄
        split
        · exact .pure hp₄
        · exact expand_proceeds rules config q₀ depth t p₄ hp₄ hq'.live

/-- A search that answers has kept its progress sound. -/
theorem sound_of_expand {depth : Nat} {o : SearchOutcome}
    (h : expand rules config depth .start ⟨.ofQuery q₀,.zero⟩ = .ok o p) : Sound rules q₀ p := by
  have hends := expand_proceeds rules config q₀ depth .start ⟨.ofQuery q₀,.zero⟩
    (sound_ofQuery rules q₀) ⟨_,rfl⟩
  rw [Proceeds,Ends,h] at hends
  exact hends.1

end Search

end GraphPattern
