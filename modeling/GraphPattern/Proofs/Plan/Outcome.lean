import GraphPattern.Proofs.Plan.Sound
import GraphPattern.Proofs.Search.Depth
import GraphPattern.Proofs.Search.Trace

/-!
# What the outcome of a plan tells

The outcome of a search is computed on its way, the path of a plan afterwards from the graph. The
two agree, whatever the rules are: there is a path exactly when the search says that it has found a
goal, and where the search did not end early every state has its steps, in order, for everything
that the rules list there. A greatest number of states ends every search, and it is passed by one
state at most.
-/

namespace GraphPattern

open Step

namespace SearchGraph

variable {rules : List Rule} {q₀ : Query} {g : SearchGraph} {s t : StateId} {es : List StepId}
  {k : Nat}

/-- There is a shortest path from the start exactly when some state is a goal. -/
theorem Faithful.shortestPath?_isSome (hf : g.Faithful rules q₀) (ha : g.Acyclic) :
    (g.shortestPath? .start).isSome = true ↔ ∃ s, g.isGoal s = true := by
  rw [SearchGraph.shortestPath?_isSome (ha.straight fun he hx => hf.source_of_out he hx)]
  constructor
  · exact fun ⟨_,hd⟩ => hd.exists_goal
  · rintro ⟨s,hgoal⟩
    have hs : g.Live s := by
      obtain ⟨st,hst,-⟩ := (Option.any_eq_true _ _).mp hgoal
      exact ⟨st,hst⟩
    obtain ⟨es,hes,-⟩ := hf.path_start hs
    exact ⟨_,hes.goalIn hf.mem_out hgoal⟩

end SearchGraph

namespace Search

open SearchGraph

variable {rules : List Rule} {config : SearchConfig} {q : Query} {o : SearchOutcome}
  {p : SearchProgress} {depth most : Nat}

/-! ## A whole search -/

/-- What is true of the progress that a search ends with. -/
structure Concludes (rules : List Rule) (config : SearchConfig) (q : Query) (o : SearchOutcome)
    (p : SearchProgress) : Prop where
  /-- The graph is what a search makes. -/
  kept : p.graph.Kept rules q
  /-- It holds too many states if the search has given up, and only then. -/
  roomy : if o = .capped then Crowded config p.graph.states.size
    else Roomy config p.graph.states.size
  /-- Without a goal no state is one. -/
  exhausted : o = .exhausted → ∀ s, p.graph.isGoal s = false
  /-- A goal that was found is there. -/
  solved : o = .solved → ∃ s, p.graph.isGoal s = true
  /-- A search that stops at its first goal has found no other. -/
  single : o = .solved → config.exhaustive = false →
    ∀ s t, p.graph.isGoal s = true → p.graph.isGoal t = true → s = t
  /-- A search that did not end early is finished with every state. -/
  finished : config.continues o = true → ∀ s, p.graph.Live s → Finished rules p.graph s

theorem live_ofQuery {s : StateId} : (ofQuery q).Live s ↔ s = .start := by
  rw [live_iff]
  exact ⟨fun h => congrArg StateId.mk (Nat.lt_one_iff.mp h),fun h => h ▸ Nat.one_pos⟩

theorem live_of_isGoal {g : SearchGraph} {s : StateId} (h : g.isGoal s = true) : g.Live s := by
  obtain ⟨st,hst,-⟩ := (Option.any_eq_true _ _).mp h
  exact ⟨st,hst⟩

/-- A search concludes, whatever the rules and however deep it may go. -/
theorem concludes_of_expand (h : expand rules config depth .start ⟨.ofQuery q,.zero⟩ = .ok o p) :
    Concludes rules config q o p := by
  have hstart : (ofQuery q).state? .start = some (.ofQuery q) := rfl
  have hk : (ofQuery q).Kept rules q := ⟨faithful_ofQuery rules q,tallied_ofQuery q⟩
  rcases expand_works rules config depth hstart h with ⟨hgoal,rfl,rfl⟩|⟨hgoal,ts,hworks,hall⟩
  · have hg : (ofQuery q).isGoal .start = true := hgoal
    have honly : ∀ {s}, (ofQuery q).isGoal s = true → s = .start := fun h =>
      live_ofQuery.mp (live_of_isGoal h)
    exact ⟨hk,.inl rfl,nofun,fun _ => ⟨_,hg⟩,fun _ _ s t hs ht => (honly hs).trans (honly ht).symm,
      fun _ s hs => .inl (live_ofQuery.mp hs ▸ hg)⟩
  · have hq : (ofQuery q).Shows .start q := ⟨_,hstart,rfl⟩
    obtain ⟨hk',hext⟩ := hworks.continues hk hq
    -- The start is no goal, so a goal has been discovered.
    have hgoals : ∀ s, p.graph.isGoal s = true ↔ Discovers ⟨.ofQuery q,.zero⟩ p s := fun s => by
      refine ⟨fun hs => ⟨live_of_isGoal hs,fun hlive => ?_,hs⟩,fun hs => hs.2.2⟩
      rw [isGoal_grows hlive hext.grows,live_ofQuery.mp hlive] at hs
      exact absurd (hs.symm.trans hgoal) nofun
    obtain ⟨hnone,hsome⟩ := hworks.goals hk hq
    refine ⟨hk',hworks.roomy (.inl rfl),fun ho s => ?_,fun ho => ?_,fun ho hex s t hs ht => ?_,
      fun hmore s hs => ?_⟩
    · rw [← Bool.not_eq_true,hgoals]
      exact hnone ho s
    · simp only [hgoals]
      exact (hsome ho).1
    · exact (hsome ho).2 hex s t ((hgoals s).mp hs) ((hgoals t).mp ht)
    · obtain ⟨htrials,hnew⟩ := hworks.finished hk hq hmore
      by_cases hold : (ofQuery q).Live s
      · rw [live_ofQuery.mp hold]
        obtain ⟨st,hst,hquery⟩ := hext.grows.state hstart
        exact .inr ⟨st,ts,hst,hquery ▸ hall hmore,htrials⟩
      · exact hnew s hs hold

/-! ## A greatest number of states -/

/-- Why a search fails that is not short of depth: a rule has failed, or a reduction has led back to
a state from which it came. -/
inductive Reported (rules : List Rule) : Error → Prop
  /-- A rule refused to list its applications. -/
  | applications {rule : Rule} {q : Query} {vertex : ItemId} {e : Error} (given : rule ∈ rules)
    (refused : rule.applications q vertex = .error e) : Reported rules e
  /-- A rule refused an application. -/
  | apply {rule : Rule} {q : Query} {a : Application} {e : Error} (given : rule ∈ rules)
    (refused : rule.apply q a = .error e) : Reported rules e
  /-- The vertex that a rule answered with is not in the query that it answered with. -/
  | result {rule : Rule} {q : Query} {a : Application} {r : Reduced} {e : Error}
    (given : rule ∈ rules) (applied : rule.apply q a = .ok r) (refused : r.result = .error e) :
    Reported rules e
  /-- A reduction has led back. -/
  | leadsBack (text : String) (s t : StateId) : Reported rules (.invariant (.leadsBack text s t))

/-- A reduction fails because a rule does or because it leads back. -/
theorem reported_of_reduce {s : StateId} {vertex : ItemId} {rule : Rule} {a : Application}
    {e : Error} {p' : SearchProgress} (hr : rule ∈ rules)
    (h : reduce s q vertex rule a p = .error e p') : Reported rules e := by
  simp only [reduce,count,extend,bind_apply,modify_apply,get_apply] at h
  cases happ : rule.apply q a with
  | error e' =>
    simp only [happ,lift_error] at h
    cases h
    exact .apply hr happ
  | ok r =>
    cases hres : r.result with
    | error e' =>
      simp only [happ,hres,lift_ok,lift_error] at h
      cases h
      exact .result hr happ hres
    | ok result =>
      simp only [happ,hres,lift_ok] at h
      cases hf : p.graph.find? r.query.content with
      | none =>
        simp only [hf,bind_apply,modify_apply,pure_apply] at h
        cases h
      | some known =>
        simp only [hf] at h
        by_cases hreach : p.graph.reaches known s = true
        · simp only [hreach,if_true,bind_apply,throw_apply] at h
          cases h
          exact .leadsBack _ _ _
        · simp only [hreach,Bool.false_eq_true,if_false,bind_apply,modify_apply,pure_apply] at h
          cases h

/-- A part of a search is settled: the other part, which may go deeper, does the same, and the part
loses no state, and fails only for a reason that has nothing to do with depth. -/
def Settled {α : Type} (rules : List Rule) (x y : SearchAction α) (states : Nat)
    (p : SearchProgress) : Prop :=
  x p = y p ∧ Ends y p (fun _ p' => states ≤ p'.graph.states.size) fun e _ => Reported rules e

/-- Alternatives that are settled wherever no state is lost are settled one after another. -/
theorem tryAll_settled {α : Type} {explore explore' : α → SearchAction SearchOutcome} {as : List α}
    {states : Nat} (h : ∀ a ∈ as, ∀ p, states ≤ p.graph.states.size →
      Settled rules (explore' a) (explore a) states p) :
    ∀ (found : SearchOutcome) (p : SearchProgress), states ≤ p.graph.states.size →
      Settled rules (tryAll config explore' found as) (tryAll config explore found as) states p := by
  induction as with
  | nil => exact fun found p hp => ⟨rfl,.of_ok rfl hp⟩
  | cons a as ih =>
    intro found p hp
    obtain ⟨hsame,hends⟩ := h a List.mem_cons_self p hp
    have hrest := ih fun b hb => h b (List.mem_cons_of_mem _ hb)
    cases ha : explore a p with
    | error e p₁ =>
      have hleft := bind_of_error (hsame.trans ha) (β:=SearchOutcome)
      have hright := bind_of_error ha (β:=SearchOutcome)
      rw [Settled,tryAll,tryAll,hleft]
      exact ⟨(hright _).symm,.of_error (hright _) (hends.of_eq_error ha)⟩
    | ok o₁ p₁ =>
      have hp₁ : states ≤ p₁.graph.states.size := hends.of_eq ha
      rw [Settled,tryAll,tryAll,bind_of_ok (hsame.trans ha),bind_of_ok ha,Ends,bind_of_ok ha]
      cases o₁ with
      | capped => exact ⟨rfl,hp₁⟩
      | exhausted => exact hrest found p₁ hp₁
      | solved =>
        by_cases hex : config.exhaustive = true
        · simp only [if_pos hex]
          exact hrest .solved p₁ hp₁
        · simp only [if_neg hex]
          exact ⟨trivial,hp₁⟩

/-- Trying an application is settled if exploring the new state is. A new state that is explored at
all has taken up one of the numbers that are left. -/
theorem explore_settled (hm : config.maxStates = some most)
    (hd : ∀ u p, p.graph.Live u → 0<depth → most+2 ≤ depth+p.graph.states.size →
      Settled rules (expand rules config (depth+1) u) (expand rules config depth u)
        p.graph.states.size p)
    {s : StateId} {vertex : ItemId} {rule : Rule} (hr : rule ∈ rules) {a : Application}
    (hdeep : most+2 ≤ depth+1+p.graph.states.size) :
    Settled rules (explore rules config (depth+1) s q vertex rule a)
      (explore rules config depth s q vertex rule a) p.graph.states.size p := by
  rw [Settled,explore,explore]
  cases hred : reduce s q vertex rule a p with
  | error e p₁ =>
    rw [bind_of_error hred,bind_of_error hred]
    exact ⟨rfl,.of_error (bind_of_error hred _) (reported_of_reduce hr hred)⟩
  | ok target p₁ =>
    have hsize := size_of_attempt (t:=⟨vertex,rule,a⟩) hred
    rw [bind_of_ok hred,bind_of_ok hred,Ends,bind_of_ok hred]
    cases target with
    | none => exact ⟨rfl,Nat.le_of_eq hsize.symm⟩
    | some u =>
      rw [Option.isSome_some,if_pos rfl] at hsize
      rw [pursue,pursue,bind_of_ok (get_apply p₁),bind_of_ok (get_apply p₁)]
      by_cases hroom : config.exceeds p₁.graph.states.size = true
      · rw [if_pos hroom,if_pos hroom]
        exact ⟨rfl,(hsize ▸ Nat.le_succ _ : p.graph.states.size ≤ p₁.graph.states.size)⟩
      · rw [if_neg hroom,if_neg hroom]
        rw [SearchConfig.exceeds,hm,Option.any_some,decide_eq_true_eq] at hroom
        obtain ⟨-,q',hq'⟩ := reduce_new_live hred
        obtain ⟨hsame,hends⟩ := hd u p₁ hq'.live (by omega) (by omega)
        exact ⟨hsame,hends.imp (fun _ _ h => Nat.le_trans (by omega) h) fun _ _ h => h⟩

/-- Where the number of states is limited, a search that may go deeper than states are missing is
settled: every state on its way down is a new one. -/
theorem expand_settled (rules : List Rule) (hm : config.maxStates = some most) :
    ∀ (depth : Nat) (s : StateId) (p : SearchProgress), p.graph.Live s →
      0<depth → most+2 ≤ depth+p.graph.states.size →
      Settled rules (expand rules config (depth+1) s) (expand rules config depth s)
        p.graph.states.size p
  | 0, _, _, _, hpos, _ => absurd hpos (Nat.lt_irrefl 0)
  | depth+1, s, p, ⟨st,hs⟩, _, hdeep => by
    rw [Settled,Ends,expand_succ rules config depth hs,expand_succ rules config (depth+1) hs]
    split
    · exact ⟨rfl,Nat.le_refl _⟩
    · refine tryAll_settled (fun vertex _ p₁ hp₁ => ?_) .exhausted p (Nat.le_refl _)
      refine tryAll_settled (fun rule hr p₂ hp₂ => ?_) .exhausted p₁ hp₁
      rw [ask,ask]
      cases has : rule.applications st.query vertex with
      | error e => exact ⟨rfl,.of_error rfl (.applications hr has)⟩
      | ok as =>
        refine tryAll_settled (fun a _ p₃ hp₃ => ?_) .exhausted p₂ hp₂
        obtain ⟨hsame,hends⟩ := explore_settled (p:=p₃) hm (expand_settled rules hm depth) hr
          (Nat.le_trans hdeep (Nat.add_le_add_left hp₃ _))
        exact ⟨hsame,hends.imp (fun _ _ h => Nat.le_trans hp₃ h) fun _ _ h => h⟩

end Search

namespace Plan

open SearchGraph

variable {rules : List Rule} {config : SearchConfig} {q : Query} {plan : Plan} {depth : Nat}

/-! ## The outcome of a plan -/

/-- The graph of a plan holds more states than are allowed, and not only the start. -/
def Overflows (config : SearchConfig) (plan : Plan) : Prop :=
  1<plan.graph.states.size ∧ config.exceeds plan.graph.states.size = true

/-- What the outcome of a plan tells about its graph and its path. -/
structure Truthful (rules : List Rule) (config : SearchConfig) (plan : Plan) : Prop where
  /-- The outcome says that there is a solution exactly when there is a path. -/
  path : plan.outcome = .solved ↔ plan.isSolved = true
  /-- There is a path exactly when the search has not given up and a state is a goal. -/
  goal : plan.isSolved = true ↔ ¬plan.Overflows config ∧ ∃ s, plan.graph.isGoal s = true
  /-- A search that stops at its first goal has come upon a single one. -/
  single : config.exhaustive = false → plan.outcome = .solved →
    ∃! s, plan.graph.isGoal s = true
  /-- Unless the search ended early, the steps of every state that is no goal carry out, in order,
  all that the rules list there. -/
  expanded : plan.outcome = .exhausted ∨ plan.outcome = .solved ∧ config.exhaustive = true →
    ∀ {s st}, plan.graph.state? s = some st → st.isGoal = false →
      ∃ ts, Trial.ofQuery rules st.query = .ok ts ∧ plan.graph.trials s = ts.map some
  /-- The search has given up exactly when there are more states than allowed. -/
  capped : plan.outcome = .capped ↔ plan.Overflows config
  /-- At most one state is more than allowed. -/
  bounded : ∀ {most}, config.maxStates = some most →
    plan.graph.states.size ≤ max most 1+1
  /-- A search that has given up has no path. -/
  pathless : plan.outcome = .capped → plan.path = none

/-- A search that concludes without a cycle ends with a truthful plan. -/
theorem truthful_ofSearch {o : SearchOutcome} {p : SearchProgress}
    (h : Search.Concludes rules config q o p) (ha : p.graph.Acyclic) :
    (ofSearch o p).Truthful rules config := by
  have hf := h.kept.faithful
  have hroomy := h.roomy
  have hcapped : o = .capped ↔ (ofSearch o p).Overflows config := by
    refine ⟨fun ho => ?_,fun ⟨hone,hfull⟩ => by_contra fun ho => ?_⟩
    · rw [if_pos ho] at hroomy
      obtain ⟨hfull,before,hbefore,hsize⟩ := hroomy
      refine ⟨?_,hfull⟩
      change 1<p.graph.states.size
      rcases hbefore with rfl|⟨hlt,-⟩ <;> omega
    · rw [if_neg ho] at hroomy
      rcases hroomy with hsize|⟨-,hroom⟩
      · exact Nat.ne_of_gt hone hsize
      · exact absurd (hfull.symm.trans hroom) nofun
  have hgoal : o = .solved ↔ o ≠ .capped ∧ ∃ s, p.graph.isGoal s = true := by
    cases o with
    | solved => exact ⟨fun _ => ⟨nofun,h.solved rfl⟩,fun _ => rfl⟩
    | capped => exact ⟨nofun,fun ho => absurd rfl ho.1⟩
    | exhausted =>
      refine ⟨nofun,fun ⟨_,s,hs⟩ => ?_⟩
      rw [h.exhausted rfl s] at hs
      cases hs
  have hpath : (ofSearch o p).isSolved = true ↔ o ≠ .capped ∧ ∃ s, p.graph.isGoal s = true := by
    rw [← hf.shortestPath?_isSome ha]
    cases o with
    | capped => exact ⟨nofun,fun ho => absurd rfl ho.1⟩
    | solved => exact ⟨fun hs => ⟨nofun,hs⟩,And.right⟩
    | exhausted => exact ⟨fun hs => ⟨nofun,hs⟩,And.right⟩
  constructor
  · exact hgoal.trans hpath.symm
  · rw [hpath,← hcapped]
    rfl
  · intro hex ho
    obtain ⟨s,hs⟩ := h.solved ho
    exact ⟨s,hs,fun t ht => h.single ho hex t s ht hs⟩
  · intro ho s st hs hno
    have hmore : config.continues o = true := by
      rcases ho with ho|⟨ho,hex⟩
      · exact (congrArg config.continues ho).trans rfl
      · exact (congrArg config.continues ho).trans hex
    rcases h.finished hmore s ⟨st,hs⟩ with hgoal|⟨st',ts,hst',hts,htrials⟩
    · rw [isGoal,show p.graph.state? s = some st from hs,Option.any_some,hno] at hgoal
      cases hgoal
    · rw [show p.graph.state? s = some st from hs] at hst'
      cases hst'
      exact ⟨ts,hts,htrials⟩
  · exact hcapped
  · intro most hm
    change p.graph.states.size ≤ _
    split at hroomy
    · obtain ⟨-,before,hbefore,hsize⟩ := hroomy
      have := hbefore.le hm
      omega
    · exact Nat.le_succ_of_le (hroomy.le hm)
  · intro ho
    cases ho
    rfl

/-- A plan that is limited in its number of states is the same however much deeper the search may
go, and it fails only for a reason that has nothing to do with depth. -/
theorem toDepth_limited (rules : List Rule) {most : Nat} (hm : config.maxStates = some most)
    (hd : Search.depthLimit config q ≤ depth) :
    toDepth rules config depth q = ofQuery rules config q ∧
      ∀ {e}, toDepth rules config depth q = .error e → Search.Reported rules e := by
  have hlimit : Search.depthLimit config q = most+2 := by
    rw [Search.depthLimit,hm]
  have hsettled : ∀ {depth}, Search.depthLimit config q ≤ depth →
      Search.Settled rules (Search.expand rules config (depth+1) .start)
        (Search.expand rules config depth .start) 1 ⟨.ofQuery q,.zero⟩ := fun hle =>
    Search.expand_settled rules hm _ .start ⟨.ofQuery q,.zero⟩ ⟨_,rfl⟩ (by omega)
      (Nat.le_trans (hlimit ▸ hle) (Nat.le_add_right _ _))
  constructor
  · induction depth, hd using Nat.le_induction with
    | base => rfl
    | succ depth hle ih =>
      rw [← ih,toDepth,toDepth,Search.runTo,Search.runTo,EStateM.run,EStateM.run,
        (hsettled hle).1]
  · intro e he
    rw [toDepth,Search.runTo,EStateM.run] at he
    cases hrun : Search.expand rules config depth .start ⟨.ofQuery q,.zero⟩ with
    | ok o p =>
      rw [hrun] at he
      cases he
    | error e' p =>
      rw [hrun] at he
      cases he
      exact (hsettled hd).2.of_eq_error hrun

/-- The outcome of a plan is truthful, whatever the rules and however deep the search may go. A
greatest number of states lets every search end, also with rules that never run out of new states:
the search is the same however deep it may go, and it fails only if a rule does or if it is led
back. -/
theorem outcome_truthful (rules : List Rule) (config : SearchConfig) (q : Query) :
    (∀ {depth : Nat} {plan : Plan}, toDepth rules config depth q = .ok plan →
      plan.Truthful rules config) ∧
    ∀ {most depth : Nat}, config.maxStates = some most → Search.depthLimit config q ≤ depth →
      toDepth rules config depth q = ofQuery rules config q ∧
        ∀ {e}, toDepth rules config depth q = .error e → Search.Reported rules e := by
  refine ⟨fun {depth plan} h => ?_,fun hm hd => toDepth_limited rules hm hd⟩
  obtain ⟨o,p,hrun,rfl⟩ := exists_of_toDepth h
  exact truthful_ofSearch (Search.concludes_of_expand hrun) (Search.sound_of_expand hrun).acyclic

/-- A rule that never runs out of new states: at every vertex it adds another one, with a longer
name than all others. -/
def sprouting : Rule where
  name := "sprout"
  applications q v := return [← Application.ofItems q [v]]
  apply q _ := Reduced.ofEdit q do
    let vertex ← Item.newVertex (String.ofList (List.replicate (q.items.next+1) 'A'))
    Query.addVertex .root vertex
  replay _ := return none

/-- A query with one vertex. -/
def lone : Query :=
  ⟨"q","",⟨[some { Item.bare ["A"] (.vertex false []) with container := some .root }]⟩,
    ⟨[some { Container.bare .query with vertices := [⟨0⟩] }]⟩⟩

/-- From one vertex the rule never runs out of new states. With two states at most the search gives
up, with three states and without a path, and so it does if it may go deeper. -/
theorem outcome_truthful_sprouting : (⟨false,some 2⟩ : SearchConfig).maxStates = some 2 ∧
    Search.depthLimit ⟨false,some 2⟩ lone ≤ 9 ∧
    ∃ plan, toDepth [sprouting] ⟨false,some 2⟩ 9 lone = .ok plan ∧
      ofQuery [sprouting] ⟨false,some 2⟩ lone = .ok plan ∧ plan.graph.states.size = 3 ∧
      plan.outcome = .capped ∧ plan.path = none := by
  have hdeep : Search.depthLimit ⟨false,some 2⟩ lone ≤ 9 := by decide
  have heval : ((toDepth [sprouting] ⟨false,some 2⟩ 9 lone).toOption.any fun plan =>
      decide (plan.graph.states.size = 3)) = true := by
    decide +kernel
  obtain ⟨htruthful,hlimited⟩ := outcome_truthful [sprouting] ⟨false,some 2⟩ lone
  cases hplan : toDepth [sprouting] ⟨false,some 2⟩ 9 lone with
  | error e =>
    rw [hplan] at heval
    cases heval
  | ok plan =>
    rw [hplan] at heval
    have hsize : plan.graph.states.size = 3 := of_decide_eq_true heval
    have ht := htruthful hplan
    have hcapped : plan.outcome = .capped := by
      rw [ht.capped,Overflows,hsize]
      decide
    exact ⟨rfl,hdeep,plan,rfl,(hlimited rfl hdeep).1.symm.trans hplan,hsize,hcapped,
      ht.pathless hcapped⟩

end Plan

end GraphPattern
