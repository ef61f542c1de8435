import GraphPattern.Proofs.Rule.Complete
import GraphPattern.Proofs.Search.Faithful

/-!
# Searches with the rules of the library end

A search with rules of the library answers, whatever it is asked. The weight carries the proof:
every reduction lowers it, it can be read off the content of a query, so no step leads back to a
state from which it was reached, and the depth that a search allows itself is never used up.
-/

namespace GraphPattern

open Step

/-- Every rule of the library answers at every query that reductions lead to. -/
def Query.Reliable (q₀ : Query) : Prop :=
  ∀ {q}, Relation.ReflTransGen Query.ReducesTo q₀ q → q.Answerable

theorem Query.Reliable.wellFormed {q₀ : Query} (h : q₀.Reliable) : q₀.WellFormed :=
  (h .refl).wellFormed

/-- Where plans can be made of a query they can be made of every query that reductions lead to. -/
theorem Query.Plannable.reliable {q₀ : Query} (h : q₀.Plannable) : q₀.Reliable := by
  intro q hq
  refine Rule.answerable_of_plannable ?_
  induction hq with
  | refl => exact h
  | tail _ hstep ih =>
    obtain ⟨rule,a,out,hred⟩ := hstep
    exact (hred.carriedOut ih).2.1

/-- Every rule is one of the library. -/
def Rule.AllBuiltIn (rules : List Rule) : Prop := ∀ rule ∈ rules, rule ∈ Rule.builtIn

namespace SearchGraph

variable {rules : List Rule} {q₀ : Query} {g : SearchGraph}

/-- What a rule of the library has done to a well-formed query is a reduction. -/
theorem exists_reduction (hr : Rule.AllBuiltIn rules) {x : SearchStep} {q q' : Query}
    (h : q.WellFormed) (hx : x.Carries rules q q') :
    ∃ out, Rule.Reduction q x.rule x.application q' out := by
  obtain ⟨out,happ,-⟩ := hx.applied
  exact Rule.exists_reduction_of_listedAt h (hr _ hx.rule) ⟨hx.vertex,hx.listed⟩ happ

/-- What a rule of the library has done is a reduction, and its output is what came out. -/
theorem reducible_of_carries (hr : Rule.AllBuiltIn rules) {x : SearchStep} {q q' : Query}
    (h : q.Reducible) (hx : x.Carries rules q q') : ∃ out,
      Rule.Reduction q x.rule x.application q' out ∧ q'.Reducible := by
  obtain ⟨out,hred⟩ := exists_reduction hr h.wellFormed hx
  exact ⟨out,hred,hred.reducible h⟩

/-- What a rule of the library has done is a reduction. -/
theorem reduction_of_carries (hr : Rule.AllBuiltIn rules) {x : SearchStep} {q q' : Query}
    (h : q.Plannable) (hx : x.Carries rules q q') :
    ∃ out, Rule.Reduction q x.rule x.application q' out ∧ q'.Plannable := by
  obtain ⟨out,hred,-⟩ := reducible_of_carries hr h.toReducible hx
  exact ⟨out,hred,(hred.carriedOut h).2.1⟩

/-- Every state of a search from a query that plans can be made of is such a query, and weighs no
more than the start. -/
theorem Faithful.plannable (h : g.Faithful rules q₀) (hr : Rule.AllBuiltIn rules)
    (h₀ : q₀.Plannable) {s : StateId} {st : SearchState} (hs : g.state? s = some st) :
    st.query.Plannable ∧ st.query.weight ≤ q₀.weight := by
  refine h.preserved (P:=fun q => q.Plannable ∧ q.weight ≤ q₀.weight) ⟨h₀,Nat.le_refl _⟩ ?_ hs
  intro x q q' hq hx
  obtain ⟨out,hred,hq'⟩ := reduction_of_carries hr hq.1 hx
  exact ⟨hq',Nat.le_trans (Nat.le_of_lt (hred.weight_lt hq.1.wellFormed)) hq.2⟩

/-- Reductions lead from the start to the query of every state. -/
theorem Faithful.reduced (h : g.Faithful rules q₀) (hr : Rule.AllBuiltIn rules)
    (h₀ : q₀.WellFormed) {s : StateId} {st : SearchState} (hs : g.state? s = some st) :
    Relation.ReflTransGen Query.ReducesTo q₀ st.query := by
  refine h.preserved (P:=Relation.ReflTransGen Query.ReducesTo q₀) .refl (fun hq hx => ?_) hs
  obtain ⟨out,hred⟩ := exists_reduction hr (Query.wellFormed_of_reflTransGen h₀ hq) hx
  exact hq.tail ⟨_,_,out,hred⟩

theorem Faithful.wellFormed (h : g.Faithful rules q₀) (hr : Rule.AllBuiltIn rules)
    (h₀ : q₀.WellFormed) {s : StateId} {st : SearchState} (hs : g.state? s = some st) :
    st.query.WellFormed :=
  Query.wellFormed_of_reflTransGen h₀ (h.reduced hr h₀ hs)

/-- The weight of the query of a state. -/
def weightAt (g : SearchGraph) (s : StateId) : Nat := (g.state? s).elim 0 fun st => st.query.weight

theorem weightAt_of_some {s : StateId} {st : SearchState} (hs : g.state? s = some st) :
    g.weightAt s = st.query.weight := by
  rw [weightAt,hs]
  rfl

theorem weight_pos (q : Query) (h : q.WellFormed) : 0<q.weight := by
  obtain ⟨R,hR,-⟩ := h.nested.root
  change 0<q.gauged .weight
  have hw := Query.gauged_dropContainer .weight hR
  have hpos : 0<Gauge.weight.ofContainer R := Nat.add_pos_left (Nat.add_pos_left Nat.one_pos _) _
  omega

/-- Every step lowers the weight. -/
theorem Faithful.weight_step (h : g.Faithful rules q₀) (hr : Rule.AllBuiltIn rules)
    (h₀ : q₀.WellFormed) {e : StepId} {x : SearchStep} (he : g.step? e = some x) :
    g.weightAt x.target<g.weightAt x.source := by
  obtain ⟨s,t,q',hs,ht,hx,hc⟩ := h.step he
  have hsw := h.wellFormed hr h₀ hs
  obtain ⟨out,hred⟩ := exists_reduction hr hsw hx
  rw [weightAt_of_some hs,weightAt_of_some ht,
    ← Query.weight_content (h.wellFormed hr h₀ ht).nested,← hc,
    Query.weight_content (hred.applied hsw).2.nested]
  exact hred.weight_lt hsw

/-- No path is longer than the start weighs. -/
theorem Faithful.path_length (h : g.Faithful rules q₀) (hr : Rule.AllBuiltIn rules)
    (h₀ : q₀.Plannable) {s t : StateId} {es : List StepId} (hp : g.Path s es t) :
    es.length<q₀.weight := by
  have hlen := hp.length_le (f:=g.weightAt) fun he => h.weight_step hr h₀.wellFormed he
  have hpos := weight_pos q₀ h₀.wellFormed
  cases hp with
  | nil => exact hpos
  | cons found source rest =>
    obtain ⟨st,-,-,hs,-⟩ := h.step found
    rw [source] at hs
    have hle := (h.plannable hr h₀ hs).2
    have htarget : ∀ {e x}, g.step? e = some x → ∃ st', g.state? x.target = some st' := by
      intro e x hx
      obtain ⟨-,st',-,-,hst',-⟩ := h.step hx
      exact ⟨st',hst'⟩
    obtain ⟨st',hst'⟩ := rest.holds (P:=fun t => ∃ st', g.state? t = some st') (htarget found)
      htarget
    have hpos' := weight_pos _ (h.plannable hr h₀ hst').1.wellFormed
    rw [weightAt_of_some hs,weightAt_of_some hst'] at hlen
    omega

end SearchGraph

namespace Search

variable {rules : List Rule} {config : SearchConfig} {q₀ : Query}

/-- Alternatives that are all explored leave what each of them keeps. -/
theorem tryAll_ok {α : Type} {explore : α → SearchAction SearchOutcome}
    {I : SearchProgress → Prop} {as : List α}
    (h : ∀ a ∈ as, ∀ p, I p → ∃ o p', explore a p = .ok o p' ∧ I p') :
    ∀ (found : SearchOutcome) (p : SearchProgress), I p →
      ∃ o p', tryAll config explore found as p = .ok o p' ∧ I p' := by
  induction as with
  | nil => exact fun found p hp => ⟨found,p,rfl,hp⟩
  | cons a as ih =>
    intro found p hp
    obtain ⟨o,p',ho,hp'⟩ := h a List.mem_cons_self p hp
    have hrest := ih fun b hb => h b (List.mem_cons_of_mem _ hb)
    rw [tryAll,bind_of_ok ho]
    cases o with
    | capped => exact ⟨_,p',rfl,hp'⟩
    | solved =>
      by_cases hc : config.exhaustive = true
      · simp only [if_pos hc]
        exact hrest .solved p' hp'
      · simp only [if_neg hc]
        exact ⟨_,p',rfl,hp'⟩
    | exhausted => exact hrest found p' hp'

variable {state known : StateId} {q : Query} {vertex : ItemId} {rule : Rule} {a : Application}
  {r : Reduced} {result : ResultVertex} {p : SearchProgress}

/-- A reduction that leads to a known state adds a step. -/
theorem reduce_known (ha : rule.apply q a = .ok r) (hres : r.result = .ok result)
    (hf : p.graph.find? r.query.content = some known)
    (hn : p.graph.reaches known state = false) : reduce state q vertex rule a p =
      .ok none ⟨p.graph.addStep ⟨state,known,vertex,rule,a,result⟩,
        { p.counters with
          applications := p.counters.applications+1
          dedupHits := p.counters.dedupHits+1 }⟩ := by
  simp only [reduce,count,extend,ha,hres,bind_apply,modify_apply,lift_ok,get_apply,hf,hn,
    Bool.false_eq_true,if_false,pure_apply]

/-- A reduction that leads to a new content adds a state and a step. -/
theorem reduce_new (ha : rule.apply q a = .ok r) (hres : r.result = .ok result)
    (hf : p.graph.find? r.query.content = none) : reduce state q vertex rule a p =
      .ok (some ⟨p.graph.states.size⟩) ⟨(p.graph.addState r.query).addStep
        ⟨state,⟨p.graph.states.size⟩,vertex,rule,a,result⟩,
        { p.counters with
          applications := p.counters.applications+1
          statesCreated := p.counters.statesCreated+1 }⟩ := by
  simp only [reduce,count,extend,ha,hres,bind_apply,modify_apply,lift_ok,get_apply,hf,pure_apply]

/-- The search may go so deep that the query of a state can be explored. -/
def DeepEnough (config : SearchConfig) (depth : Nat) (g : SearchGraph) (q : Query) : Prop :=
  match config.maxStates with
  | none => q.weight ≤ depth
  | some most => 0<depth ∧ most+3 ≤ depth+g.states.size

/-- What every part of a search does to its progress: it keeps the graph faithful and lets it
grow. -/
structure Advances (rules : List Rule) (q₀ : Query) (p p' : SearchProgress) : Prop where
  /-- The graph is faithful. -/
  faithful : p'.graph.Faithful rules q₀
  /-- It has grown. -/
  grows : p.graph.Grows p'.graph

theorem Advances.trans {p p' p'' : SearchProgress} (h : Advances rules q₀ p p')
    (h' : Advances rules q₀ p' p'') : Advances rules q₀ p p'' :=
  ⟨h'.faithful,h.grows.trans h'.grows⟩

/-- A listed application is carried out, and the state that it may lead to is a lighter one. -/
theorem reduce_ok (hr : Rule.AllBuiltIn rules) (h₀ : q₀.WellFormed)
    (hg : p.graph.Faithful rules q₀) {st : SearchState} (hs : p.graph.state? state = some st)
    (hv : vertex ∈ st.query.vertices .whole) (hrule : rule ∈ rules) {as : List Application}
    (has : rule.applications st.query vertex = .ok as) (ha : a ∈ as)
    (hred : Rule.Reduces st.query rule a) : ∃ target p',
      reduce state st.query vertex rule a p = .ok target p' ∧ Advances rules q₀ p p' ∧
        ∀ t, target = some t → p'.graph.states.size = p.graph.states.size+1 ∧
          ∃ st', p'.graph.state? t = some st' ∧ st'.query.weight<st.query.weight := by
  obtain ⟨q',out,hred⟩ := hred
  have hq := hg.wellFormed hr h₀ hs
  obtain ⟨happ,hq'⟩ := hred.applied hq
  have hlt := hred.weight_lt hq
  obtain ⟨y,hy,-⟩ := (hred.changes hq).out
  have hres : Reduced.result ⟨q',out⟩ = .ok ⟨y.joinedName,y.names⟩ := by
    rw [Reduced.result,Query.item_of_some hy]
    rfl
  have hcarries : ∀ target, (SearchStep.mk state target vertex rule a
      ⟨y.joinedName,y.names⟩).Carries rules st.query q' :=
    fun target => ⟨hrule,hv,⟨as,has,ha⟩,⟨out,happ,hres⟩⟩
  cases hf : p.graph.find? q'.content with
  | some known =>
    obtain ⟨kt,hkt,hkc⟩ := SearchGraph.find?_some hf
    have hkc : q'.content = kt.query.content := hkc.symm.trans kt.content_eq
    -- A path back would have to go up: the known state weighs as much as the new query.
    have hnot : p.graph.reaches known state = false := by
      rw [← Bool.not_eq_true]
      intro hreach
      obtain ⟨es,hes⟩ := SearchGraph.path_of_reaches
        (fun he hx => hg.source_of_out he hx) hreach
      have hlen := hes.length_le (f:=p.graph.weightAt) fun he => hg.weight_step hr h₀ he
      rw [SearchGraph.weightAt_of_some hs,SearchGraph.weightAt_of_some hkt,
        ← Query.weight_content (hg.wellFormed hr h₀ hkt).nested,← hkc,
        Query.weight_content hq'.nested] at hlen
      omega
    refine ⟨none,_,reduce_known happ hres hf hnot,⟨hg.addStep hs hkt (hcarries known) hkc,?_⟩,nofun⟩
    exact SearchGraph.grows_addStep _ _
  | none =>
    refine ⟨_,_,reduce_new happ hres hf,⟨hg.addNew hs rfl (hcarries _) hf,?_⟩,?_⟩
    · exact (SearchGraph.grows_addState _ _).trans (SearchGraph.grows_addStep _ _)
    · rintro t ⟨⟩
      refine ⟨by rw [SearchGraph.size_addStep,SearchGraph.size_addState],?_⟩
      have hfound : (p.graph.addState q').state? ⟨p.graph.states.size⟩ = some (.ofQuery q') := by
        rw [SearchGraph.state?_addState,if_pos rfl]
      obtain ⟨st',hst',hsq⟩ := SearchGraph.state?_addStep_of
        (x:=⟨state,⟨p.graph.states.size⟩,vertex,rule,a,⟨y.joinedName,y.names⟩⟩) hfound
      exact ⟨st',hst',by rw [hsq]; exact hlt⟩

/-- Every state is explored. -/
theorem expand_ok (config : SearchConfig) (hr : Rule.AllBuiltIn rules) (h₀ : q₀.Reliable) :
    ∀ (depth : Nat) (state : StateId) (p : SearchProgress) (st : SearchState),
      p.graph.Faithful rules q₀ → p.graph.state? state = some st →
      DeepEnough config depth p.graph st.query →
      ∃ o p', expand rules config depth state p = .ok o p' ∧ Advances rules q₀ p p'
  | 0, state, p, st, hg, hs, hd => by
    have hpos := SearchGraph.weight_pos _ (hg.wellFormed hr h₀.wellFormed hs)
    rw [DeepEnough] at hd
    split at hd <;> omega
  | depth+1, state, p, st, hg, hs, hd => by
    rw [expand,bind_of_ok (get_apply p)]
    simp only [hs]
    by_cases hgoal : st.isGoal = true
    · rw [if_pos hgoal]
      exact ⟨_,p,rfl,hg,.refl _⟩
    · rw [if_neg hgoal]
      have hself : Advances rules q₀ p p := ⟨hg,.refl _⟩
      refine tryAll_ok (I:=Advances rules q₀ p) (fun vertex hv p₁ hp₁ => ?_) .exhausted p hself
      refine tryAll_ok (I:=Advances rules q₀ p) (fun rule hrule p₂ hp₂ => ?_) .exhausted p₁ hp₁
      have hq := h₀ (hg.reduced hr h₀.wellFormed hs)
      obtain ⟨y,hy,hyv⟩ := hq.wellFormed.mem_vertices.mp hv
      obtain ⟨as,has,hall⟩ := Rule.lists_answerable hq hy hyv (hr _ hrule)
      simp only [has]
      rw [bind_of_ok (lift_ok _ _)]
      refine tryAll_ok (I:=Advances rules q₀ p) (fun a ha p₃ hp₃ => ?_) .exhausted p₂ hp₂
      obtain ⟨st₃,hs₃,hq₃⟩ := hp₃.grows.state hs
      obtain ⟨target,p₄,hred,hp₄,hnew⟩ := reduce_ok (p:=p₃) hr h₀.wellFormed hp₃.faithful hs₃
        (by rw [hq₃]; exact hv) hrule (by rw [hq₃]; exact has) ha (by rw [hq₃]; exact hall a ha)
      rw [hq₃] at hred hnew
      rw [bind_of_ok hred]
      cases target with
      | none => exact ⟨_,p₄,rfl,hp₃.trans hp₄⟩
      | some t =>
        obtain ⟨hsize,st',hst',hlt⟩ := hnew t rfl
        simp only
        rw [bind_of_ok (get_apply p₄)]
        by_cases hcap : config.exceeds p₄.graph.states.size = true
        · rw [if_pos hcap]
          exact ⟨_,p₄,rfl,hp₃.trans hp₄⟩
        · rw [if_neg hcap]
          have hdeep : DeepEnough config depth p₄.graph st'.query := by
            have hle := hp₃.grows.size
            rw [SearchConfig.exceeds] at hcap
            rw [DeepEnough] at hd ⊢
            cases hmax : config.maxStates with
            | none =>
              simp only [hmax] at hd ⊢
              omega
            | some most =>
              simp only [hmax,Option.any_some,decide_eq_true_eq] at hd hcap ⊢
              omega
          obtain ⟨o,p₅,ho,hp₅⟩ := expand_ok config hr h₀ depth t p₄ st' hp₄.faithful hst' hdeep
          exact ⟨o,p₅,ho,(hp₃.trans hp₄).trans hp₅⟩

/-- A search that may go deep enough answers, and its graph is faithful. -/
theorem run_of_deepEnough (hr : Rule.AllBuiltIn rules) (h₀ : q₀.Reliable)
    (hd : DeepEnough config (depthLimit config q₀) (.ofQuery q₀) q₀) :
    ∃ outcome p, run rules config q₀ = .ok (outcome,p) ∧ p.graph.Faithful rules q₀ := by
  obtain ⟨outcome,p,hrun,hp⟩ := expand_ok config hr h₀ (depthLimit config q₀) .start
    ⟨.ofQuery q₀,.zero⟩ (.ofQuery q₀) (SearchGraph.faithful_ofQuery rules q₀) rfl hd
  refine ⟨outcome,p,?_,hp.faithful⟩
  rw [run,runTo,EStateM.run,hrun]

end Search

end GraphPattern
