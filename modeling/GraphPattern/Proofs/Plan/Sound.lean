import GraphPattern.Proofs.Search.Sharing

/-!
# Plans of arbitrary rules

What planning answers, however the rules choose their applications and whatever they make of a
query. The graph of a plan tells its states apart by their contents, finds each of them by its
content, reaches all of them from the start and has no cycle, and what was counted agrees with it.
Where planning fails it is a rule that failed, or a reduction has led back to a state from which it
had come. How deep a search may go does not matter to those that end before.
-/

namespace GraphPattern

open Step

/-! ## The depth of a search -/

namespace Search

open SearchGraph

variable {rules : List Rule} {config : SearchConfig} {s : StateId} {q : Query}

/-- The depth of the search was not the reason to stop. -/
def Shallow {α : Type} (r : EStateM.Result Error SearchProgress α) : Prop :=
  ∀ t p', r ≠ .error (.invariant (.tooDeep t)) p'

/-- What comes first in a sequence that was not too deep was not too deep. -/
theorem Shallow.first {α β : Type} {x : SearchAction α} {f : α → SearchAction β}
    {p : SearchProgress} (h : Shallow ((x >>= f) p)) : Shallow (x p) := fun t p' he =>
  h t p' (bind_of_error he f)

/-- What comes second in a sequence that was not too deep was not too deep. -/
theorem Shallow.second {α β : Type} {x : SearchAction α} {f : α → SearchAction β}
    {p p' : SearchProgress} {a : α} (h : Shallow ((x >>= f) p)) (hx : x p = .ok a p') :
    Shallow (f a p') := by
  rwa [bind_of_ok hx] at h

/-- Sequences whose parts agree where they are not too deep agree where they are not too deep. -/
theorem bind_deeper {α β : Type} {x y : SearchAction α} {f g : α → SearchAction β}
    {p : SearchProgress} (hx : Shallow (x p) → y p = x p)
    (hf : ∀ a p', x p = .ok a p' → Shallow (f a p') → g a p' = f a p')
    (h : Shallow ((x >>= f) p)) : (y >>= g) p = (x >>= f) p := by
  rw [bind_apply,bind_apply,hx h.first]
  cases hr : x p with
  | ok a p' => exact hf a p' hr (h.second hr)
  | error e p' => rfl

theorem tryAll_deeper {α : Type} {explore explore' : α → SearchAction SearchOutcome} {as : List α}
    (h : ∀ a ∈ as, ∀ p, Shallow (explore a p) → explore' a p = explore a p) :
    ∀ (found : SearchOutcome) (p : SearchProgress), Shallow (tryAll config explore found as p) →
      tryAll config explore' found as p = tryAll config explore found as p := by
  induction as with
  | nil => exact fun _ _ _ => rfl
  | cons a as ih =>
    intro found p hp
    have hrest := ih fun b hb => h b (List.mem_cons_of_mem _ hb)
    refine bind_deeper (h a List.mem_cons_self p) (fun o p' _ ho => ?_) hp
    cases o with
    | capped => rfl
    | solved =>
      by_cases hc : config.exhaustive = true
      · simp only [if_pos hc] at ho ⊢
        exact hrest _ _ ho
      · simp only [if_neg hc]
    | exhausted => exact hrest _ _ ho

/-- A search that was not too deep ends in the same way if it may go deeper. -/
theorem expand_deeper (rules : List Rule) (config : SearchConfig) :
    ∀ (depth : Nat) (s : StateId) (p : SearchProgress),
      Shallow (expand rules config depth s p) →
      expand rules config (depth+1) s p = expand rules config depth s p
  | 0, s, p, h => absurd rfl (h s p)
  | depth+1, s, p, h => by
    cases hs : p.graph.state? s with
    | none =>
      rw [expand,expand,bind_of_ok (get_apply p),bind_of_ok (get_apply p)]
      simp only [hs]
    | some st =>
      rw [expand_succ rules config depth hs] at h
      rw [expand_succ rules config depth hs,expand_succ rules config (depth+1) hs]
      split at h
      · rename_i hgoal
        rw [if_pos hgoal,if_pos hgoal]
      · rename_i hgoal
        rw [if_neg hgoal,if_neg hgoal]
        refine tryAll_deeper (fun vertex _ p₁ => ?_) .exhausted p h
        refine tryAll_deeper (fun rule _ p₂ => ?_) .exhausted p₁
        refine bind_deeper (fun _ => rfl) fun as p₃ _ => ?_
        refine tryAll_deeper (fun a _ p₄ => ?_) .exhausted p₃
        refine bind_deeper (fun _ => rfl) fun target p₅ _ hp => ?_
        cases target with
        | none => rfl
        | some t =>
          change Shallow ((ite _ _ _ : SearchAction SearchOutcome) p₅) at hp
          change (ite _ _ _ : SearchAction SearchOutcome) p₅ =
            (ite _ _ _ : SearchAction SearchOutcome) p₅
          split at hp
          · rename_i hcap
            rw [if_pos hcap,if_pos hcap]
          · rename_i hcap
            rw [if_neg hcap,if_neg hcap]
            exact expand_deeper rules config depth t p₅ hp

end Search

namespace Plan

open SearchGraph

variable {rules : List Rule} {config : SearchConfig} {q : Query} {plan : Plan} {depth : Nat}

/-- A plan stays the same if the search may go deeper. -/
theorem toDepth_succ (h : toDepth rules config depth q = .ok plan) :
    toDepth rules config (depth+1) q = .ok plan := by
  have hsame : Search.expand rules config (depth+1) .start ⟨.ofQuery q,.zero⟩ =
      Search.expand rules config depth .start ⟨.ofQuery q,.zero⟩ := by
    refine Search.expand_deeper rules config depth .start _ fun t p' he => ?_
    rw [toDepth,Search.runTo,EStateM.run,he] at h
    cases h
  rw [← h,toDepth,toDepth,Search.runTo,Search.runTo,EStateM.run,EStateM.run,hsame]

/-! ## What planning answers -/

/-- What is true of a plan of arbitrary rules. -/
structure Sound (rules : List Rule) (q : Query) (plan : Plan) : Prop where
  /-- The search has set out from the query. -/
  start : ∃ st, plan.graph.state? .start = some st ∧ st.query = q
  /-- No two states have the same content. -/
  distinct : ∀ {s t st st'}, plan.graph.state? s = some st → plan.graph.state? t = some st' →
    st.query.sameContent st'.query = true → s = t
  /-- A state is found by a query if it has the same content, and only then. -/
  found : ∀ {q' : Query} {s}, plan.graph.find? q'.content = some s ↔
    ∃ st, plan.graph.state? s = some st ∧ st.query.sameContent q' = true
  /-- Every state can be reached from the start. -/
  reached : ∀ {s st}, plan.graph.state? s = some st →
    plan.graph.reaches .start s = true ∧ ∃ es, plan.graph.Path .start es s
  /-- The states that are reached are those to which a path leads. -/
  exact : ∀ {s t st}, plan.graph.state? s = some st →
    (plan.graph.reaches s t = true ↔ ∃ es, plan.graph.Path s es t)
  /-- There is no cycle. -/
  acyclic : ∀ {s es}, plan.graph.Path s es s → es = []
  /-- Every step carries out a rule, and what the rule makes of the query of the one state has the
  same content as the query of the other one. -/
  step : ∀ {e x}, plan.graph.step? e = some x → ∃ s t q', plan.graph.state? x.source = some s ∧
    plan.graph.state? x.target = some t ∧ x.Carries rules s.query q' ∧
      q'.sameContent t.query = true
  /-- There are as many steps as states that were discovered and targets that were shared. -/
  steps : plan.graph.sharedTargets+(plan.graph.states.size-1) = plan.graph.steps.size
  /-- The targets that were shared are those of the steps that hit a known state. -/
  shared : plan.graph.sharedTargets = plan.graph.knownHits
  /-- The counters agree with the graph. -/
  counters : plan.counters =
    ⟨plan.graph.states.size-1,plan.graph.sharedTargets,plan.graph.steps.size⟩

/-- A search that keeps its progress sound ends with a sound plan. -/
theorem sound_ofSearch {p : SearchProgress} (hp : Search.Sound rules q p)
    (outcome : SearchOutcome) : (ofSearch outcome p).Sound rules q := by
  have hf := hp.kept.faithful
  have hstates := hp.created
  have hsteps := hp.applications
  have htotal := hp.total
  have hreach : ∀ {s t st}, p.graph.state? s = some st →
      (p.graph.reaches s t = true ↔ ∃ es, p.graph.Path s es t) := fun hs =>
    ⟨path_of_reaches fun he hx => hf.source_of_out he hx,
      fun ⟨es,hes⟩ => hp.kept.path_reaches ⟨_,hs⟩ hes⟩
  have hshared : p.graph.sharedTargets = p.counters.dedupHits := by
    rw [sharedTargets]
    omega
  constructor
  · exact hf.start
  · exact fun hs ht hc => hf.distinct hs ht (of_decide_eq_true hc)
  · intro q' s
    constructor
    · intro hfound
      obtain ⟨st,hst,hc⟩ := find?_some hfound
      exact ⟨st,hst,decide_eq_true (st.content_eq.symm.trans hc)⟩
    · rintro ⟨st,hst,hc⟩
      have hc := st.content_eq.trans (of_decide_eq_true hc)
      change p.graph.find? q'.content = some s
      cases hfound : p.graph.find? q'.content with
      | none => exact absurd hc (find?_none hfound hst)
      | some t =>
        obtain ⟨st',hst',hc'⟩ := find?_some hfound
        rw [hf.distinct hst' hst (st'.content_eq.symm.trans (hc'.trans (hc.symm.trans st.content_eq)))]
  · intro s st hs
    obtain ⟨st₀,hst₀,-⟩ := hf.start
    have hpath := (hf.path_start ⟨st,hs⟩).imp fun _ => And.left
    exact ⟨(hreach hst₀).mpr hpath,hpath⟩
  · exact hreach
  · exact fun hpath => hp.acyclic _ _ hpath
  · intro e x he
    obtain ⟨s,t,q',hs,ht,hx,hc⟩ := hf.step he
    exact ⟨s,t,q',hs,ht,hx,decide_eq_true hc⟩
  · change p.graph.sharedTargets+(p.graph.states.size-1) = p.graph.steps.size
    omega
  · exact hshared.trans hp.hits
  · change p.counters = ⟨p.graph.states.size-1,p.graph.sharedTargets,p.graph.steps.size⟩
    rw [hshared,← hsteps,← hstates]
    rfl

/-- Planning is sound whatever the rules. However they list their applications and whatever they
make of a query, and however deep the search may go, planning ends with a sound plan, or it fails
for a reason that can be seen in a graph without cycles: a rule has failed, or the search has led
back to a state from which a path leads to the one that was reduced, or it was not to go deeper. -/
theorem toDepth_sound (rules : List Rule) (config : SearchConfig) (depth : Nat) (q : Query) :
    match toDepth rules config depth q with
    | .ok plan => plan.Sound rules q
    | .error e => ∃ g : SearchGraph, g.Faithful rules q ∧ g.Acyclic ∧ Search.Fault rules g e := by
  have hlive : (SearchGraph.ofQuery q).Live .start := ⟨_,rfl⟩
  have hends := Search.expand_proceeds rules config q depth .start ⟨.ofQuery q,.zero⟩
    (Search.sound_ofQuery rules q) hlive
  rw [Search.Proceeds,Ends] at hends
  rw [toDepth,Search.runTo,EStateM.run]
  cases hrun : Search.expand rules config depth .start ⟨.ofQuery q,.zero⟩ with
  | ok outcome p =>
    rw [hrun] at hends
    exact sound_ofSearch hends.1 outcome
  | error e p =>
    rw [hrun] at hends
    exact ⟨p.graph,hends⟩

end Plan

end GraphPattern
