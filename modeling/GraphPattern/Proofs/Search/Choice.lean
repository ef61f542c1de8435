import GraphPattern.Proofs.Search.Depth
import GraphPattern.Proofs.Search.First

/-!
# The path that a search chooses

Where all ways from a state to a goal are equally long, the shortest path whose steps were
discovered first is the path to the first goal that the search has found: what stands before a step
of this path is finished, so it leads nowhere. A search that has ended without a goal has no path.
-/

namespace GraphPattern

open Relation Step

namespace SearchGraph

variable {rules : List Rule} {q₀ : Query} {g : SearchGraph} {s t : StateId}
  {A F : StateId → Prop} {es : List StepId} {k : Nat}

/-- All ways from a state to a goal are equally long. -/
def Even (g : SearchGraph) : Prop := ∀ {s k l}, g.GoalIn k s → g.GoalIn l s → k = l

theorem Even.away (h : g.Even) (hs : g.GoalIn k s) : g.Away k s :=
  ⟨hs,fun _ hlt hl => absurd (h hl hs) (Nat.ne_of_lt hlt)⟩

/-- Steps to a state from which a goal can be reached add to the number of steps to it. -/
theorem GoalIn.before (ht : g.GoalIn k t) (h : TransGen (fun s t => t ∈ g.successors s) s t) :
    ∃ l>k, g.GoalIn l s := by
  induction h using TransGen.head_induction_on with
  | single h => exact ⟨k+1,Nat.lt_succ_self k,.step h ht⟩
  | head h _ ih =>
    obtain ⟨l,hl,hg⟩ := ih
    exact ⟨l+1,Nat.lt_succ_of_lt hl,.step h hg⟩

/-- Going round a cycle would make a way to a goal longer. -/
theorem Even.straight (h : g.Even) : g.Straight := by
  intro s d hback hd
  obtain ⟨l,hl,hg⟩ := hd.before hback
  exact Nat.ne_of_gt hl (h hg hd)

/-- No goal can be reached from a finished state. -/
theorem Shut.not_goalIn (hF : g.Shut rules F) (hs : F s) : ¬g.GoalIn k s := by
  intro h
  induction h with
  | goal h =>
    rw [hF.aimless hs] at h
    cases h
  | step h _ ih => exact ih (hF.closed hs _ h)

theorem Leads.goalIn (hl : g.Leads rules F s es) : g.GoalIn es.length s := by
  induction hl with
  | goal h => exact .goal h
  | @step s e x a b before after es aimless out found source idle here there carries later rest ih =>
    exact .step (mem_successors_of (out ▸ List.mem_append_right _ List.mem_cons_self) found) ih

/-- The steps to the first goal are chosen: what stands before one of them leads nowhere. -/
theorem Leads.chosen (he : g.Even) (hF : g.Shut rules F) (hl : g.Leads rules F s es) :
    g.Chosen s es := by
  induction hl with
  | goal h => exact .goal h
  | @step s e x a b before after es aimless out found source idle here there carries later rest ih =>
    have hfirst : e ∈ g.out s := out ▸ List.mem_append_right _ List.mem_cons_self
    refine .step (he.away (.step (mem_successors_of hfirst found) rest.goalIn)) out found ?_ ih
    exact fun f hf y hy ha => hF.not_goalIn (idle f hf y hy) ha.reaches

/-- The path to the first goal is the shortest path that is chosen. -/
theorem First.shortestPath? (hf : g.First rules A F s es) (he : g.Even) :
    g.shortestPath? s = some es :=
  (shortestPath?_eq_some he.straight).mpr (hf.leads.chosen he hf.shut)

/-- Where everything is finished there is no path. -/
theorem Shut.shortestPath? (hF : g.Shut rules F) (hs : F s) : g.shortestPath? s = none := by
  rw [Option.eq_none_iff_forall_ne_some]
  exact fun es hes => hF.not_goalIn hs (walk_of_shortestPath? hes).goalIn

end SearchGraph

namespace Search

open SearchGraph

variable {rules : List Rule} {config : SearchConfig} {q : Query} {o : SearchOutcome}
  {p : SearchProgress}

/-- At its start a search is under way at the start. -/
theorem pending_ofQuery (rules : List Rule) (q : Query) :
    (ofQuery q).Pending rules q (· = .start) .start where
  kept := ⟨faithful_ofQuery rules q,tallied_ofQuery q⟩
  mem := rfl
  path := by
    rintro t rfl
    exact ⟨⟨_,rfl⟩,[],.nil _⟩
  shut := by
    have hnone : ∀ {t}, ¬((ofQuery q).Live t ∧ ¬t = .start) := by
      rintro t ⟨hlive,hne⟩
      exact hne (congrArg StateId.mk (Nat.lt_one_iff.mp (live_iff.mp hlive)))
    exact ⟨fun h => (hnone h).elim,fun h => (hnone h).elim,fun h => (hnone h).elim,
      fun h => (hnone h).elim⟩
  led := nofun

theorem tryAll_uncapped {α : Type} {explore : α → SearchAction SearchOutcome} {as : List α}
    (h : ∀ a p p', explore a p ≠ .ok .capped p') (found : SearchOutcome) (hf : found ≠ .capped)
    {p p' : SearchProgress} : tryAll config explore found as p ≠ .ok .capped p' := by
  induction as generalizing found p with
  | nil =>
    intro hp
    cases hp
    exact hf rfl
  | cons a as ih =>
    intro hp
    rw [tryAll,bind_eq_ok] at hp
    obtain ⟨o₁,p₁,h₁,hp⟩ := hp
    cases o₁ with
    | capped => exact h a _ _ h₁
    | solved =>
      simp only at hp
      split at hp
      · exact ih .solved (fun h => by cases h) hp
      · cases hp
    | exhausted => exact ih _ hf hp

/-- A search without a greatest number of states never gives up. -/
theorem expand_uncapped (hmax : config.maxStates = none) :
    ∀ (depth : Nat) (s : StateId) (p p' : SearchProgress),
      expand rules config depth s p ≠ .ok .capped p'
  | 0, _, _, _ => nofun
  | depth+1, s, p, p' => by
    have hfound : SearchOutcome.exhausted ≠ .capped := fun h => by cases h
    intro hp
    cases hs : p.graph.state? s with
    | none =>
      rw [expand,bind_of_ok (get_apply p)] at hp
      simp only [hs] at hp
      cases hp
    | some st =>
      rw [expand_succ rules config depth hs] at hp
      split at hp
      · cases hp
      · refine tryAll_uncapped (fun vertex _ _ => ?_) .exhausted hfound hp
        refine tryAll_uncapped (fun rule p₁ p₁' h => ?_) .exhausted hfound
        rw [ask,bind_eq_ok] at h
        obtain ⟨as,p₂,-,h⟩ := h
        refine tryAll_uncapped (fun a p₃ p₃' h => ?_) .exhausted hfound h
        rw [explore,bind_eq_ok] at h
        obtain ⟨target,p₄,-,h⟩ := h
        cases target with
        | none => cases h
        | some t =>
          rw [pursue,bind_of_ok (get_apply p₄),SearchConfig.exceeds,hmax] at h
          exact expand_uncapped hmax depth t p₄ p₃' h

theorem expand_of_run (h : run rules config q = .ok (o,p)) :
    expand rules config (depthLimit config q) .start ⟨.ofQuery q,.zero⟩ = .ok o p := by
  rw [run,runTo,EStateM.run] at h
  split at h
  · rename_i heq
    cases h
    exact heq
  · cases h

/-- How a search ends: it has given up, or everything is finished, or it has found the steps to a
first goal. -/
inductive Ended (rules : List Rule) (g : SearchGraph) : SearchOutcome → Prop
  /-- It has given up. -/
  | capped : Ended rules g .capped
  /-- Everything is finished. -/
  | exhausted (shut : g.Shut rules g.Live) : Ended rules g .exhausted
  /-- A goal is found. -/
  | solved {F : StateId → Prop} {es : List StepId}
    (first : g.First rules (· = .start) F .start es) : Ended rules g .solved

/-- The graph of a search is what a search makes. -/
theorem run_kept (h : run rules config q = .ok (o,p)) : p.graph.Kept rules q :=
  (expand_continues rules config q _ .start q ⟨.ofQuery q,.zero⟩ o p (pending_ofQuery rules q).kept
    ⟨_,rfl,rfl⟩ (expand_of_run h)).1

/-- What is known of the graph of a search. -/
theorem run_ended (h : run rules config q = .ok (o,p)) : Ended rules p.graph o := by
  obtain ⟨hex,hsol⟩ := expand_agree rules config q _ (· = .start) .start q ⟨.ofQuery q,.zero⟩ o p
    (pending_ofQuery rules q) ⟨_,rfl,rfl⟩ (expand_of_run h)
  cases o with
  | capped => exact .capped
  | exhausted =>
    refine .exhausted ?_
    have hall : (fun t => p.graph.Live t ∧ (t = .start → t = .start)) = p.graph.Live := by
      funext t
      exact propext ⟨And.left,fun h => ⟨h,id⟩⟩
    exact hall ▸ (hex rfl).2
  | solved =>
    obtain ⟨p₁,-,hfound⟩ := hsol rfl
    obtain ⟨F,es,-,-,hfirst⟩ := hfound.first
    exact .solved hfirst

/-- A search without a greatest number of states agrees with the one that stops at its first
goal. -/
theorem run_standard (hmax : config.maxStates = none) (h : run rules config q = .ok (o,p)) :
    (o = .exhausted ∧ run rules .standard q = .ok (.exhausted,p)) ∨
      (o = .solved ∧ ∃ p₁, run rules .standard q = .ok (.solved,p₁) ∧
        Found rules q (· = .start) .start (.ofQuery q) p₁ p) := by
  have hrun := expand_of_run h
  obtain ⟨hex,hsol⟩ := expand_agree rules config q _ (· = .start) .start q ⟨.ofQuery q,.zero⟩ o p
    (pending_ofQuery rules q) ⟨_,rfl,rfl⟩ hrun
  have hdepth : depthLimit config q = depthLimit .standard q := by
    rw [depthLimit,hmax]
    rfl
  have hstd : ∀ {o p}, expand rules .standard (depthLimit config q) .start ⟨.ofQuery q,.zero⟩ =
      .ok o p → run rules .standard q = .ok (o,p) := fun h => by
    rw [run,runTo,EStateM.run,← hdepth,h]
  cases o with
  | capped => exact absurd hrun (expand_uncapped hmax _ _ _ _)
  | exhausted => exact .inl ⟨rfl,hstd (hex rfl).1⟩
  | solved =>
    obtain ⟨p₁,h₁,hfound⟩ := hsol rfl
    exact .inr ⟨rfl,p₁,hstd h₁,hfound⟩

end Search

end GraphPattern
