import GraphPattern.Proofs.Execution.Names
import GraphPattern.Proofs.Plan.Exact
import GraphPattern.Proofs.Search.Solved
import Mathlib.Data.List.Sort

/-!
# Plans and the executor

A run of a plan answers exactly when its ledger is in order, whatever the data are. The ledger is in
order if no name has a dot in it. With dots it need not be: a composite vertex can have the joined
names of another item, and then an entry that is to be new is there already.
-/

namespace GraphPattern

open Step Workspace

namespace Plan

variable {rules : List Rule} {config : SearchConfig} {q : Query} {plan : Plan}

/-- The constraints of a query for which a plan is found can be enforced. -/
theorem comparable_of_isSolved {d : Description} (hq : d.build = .ok q)
    (hr : Rule.AllBuiltIn rules) (h : ofQuery rules config q = .ok plan)
    (hs : plan.isSolved = true) : q.Comparable := by
  obtain ⟨hw,hitem⟩ := Description.itemed_build hq
  obtain ⟨hf,F,es,hfirst,-⟩ := first_of_isSolved hr hw.reducible h hs
  obtain ⟨st,hst,rfl⟩ := hf.start
  have hsolvable := hfirst.leads.solvable hr hst hw.wellFormed
  exact fun c C k hC hk => ⟨hsolvable.sameRelation_self hw.wellFormed
    (Query.mem_declared.mpr ⟨C,hC,hk⟩),hitem c C k hC hk⟩

theorem mem_steps {s : PlanStep} (h : s ∈ plan.steps) :
    ∃ e, plan.graph.step? e = some s.step := by
  obtain ⟨e,-,he⟩ := List.mem_filterMap.mp h
  refine ⟨e,?_⟩
  cases hx : plan.graph.step? e with
  | none =>
    rw [hx] at he
    cases he
  | some x =>
    cases hs : plan.graph.state? x.source with
    | none =>
      simp only [hx,Option.bind_eq_bind,Option.bind_some,hs] at he
      cases he
    | some state =>
      simp only [hx,Option.bind_eq_bind,Option.bind_some,hs] at he
      cases he
      rfl

/-- The steps of a plan that was searched for carry out the rules that were given. -/
theorem rule_of_mem_steps (h : ofQuery rules config q = .ok plan) {s : PlanStep}
    (hs : s ∈ plan.steps) : s.step.rule ∈ rules := by
  obtain ⟨o,p,hrun,rfl⟩ := run_of_ofQuery h
  obtain ⟨e,he⟩ := mem_steps hs
  obtain ⟨_,_,_,-,-,hx,-⟩ := (Search.run_kept hrun).faithful.step he
  exact hx.rule

end Plan

/-- The last step of a chain leads to a composite vertex that is there in the end. -/
theorem Chain.composite {q u : Query} {last : PlanStep} {steps : List PlanStep} (h : Chain q steps u)
    (hlast : steps.getLast? = some last) : u.Composite last.step.result.joinedName := by
  induction h with
  | nil => cases hlast
  | @cons q q' t u x out y steps able reduced live named kept rest ih =>
    cases steps with
    | nil =>
      cases hlast
      cases rest
      have hk := (reduced.changes able.plannable.wellFormed).kind_out live
      exact (Query.composite_congr kept).mp
        ⟨out,y,live,hk,(congrArg ResultVertex.joinedName named).symm⟩
    | cons s steps => exact ih (by rw [← hlast,List.getLast?_cons_cons])

namespace Execution

/-- A run of the plan answers with a report. -/
def Answers (config : ExecutionConfig) (plan : Plan) (destination : String) (s : Store) : Prop :=
  ∃ report s', run config plan destination s = .ok report s'

variable {config : ExecutionConfig} {plan : Plan} {q u : Query} {s : Store} {last : PlanStep}
  {destination finalName : String}

/-- A run answers exactly when its steps do. -/
theorem answers_iff (hs : plan.isSolved = true)
    (hstart : (plan.graph.state? .start).map SearchState.query = some q)
    (hlast : plan.steps.getLast? = some last) : Answers config plan destination s ↔
      ∃ report w, runPlan config q plan.steps last.step.result.joinedName destination (.fresh s) =
        .ok report w := by
  obtain ⟨start,hfirst,rfl⟩ := Option.map_eq_some_iff.mp hstart
  rw [Answers,run]
  simp only [hs,Bool.not_true,Bool.false_eq_true,if_false,hfirst,hlast]
  rw [onStore,EStateM.run]
  cases hrun : runPlan config start.query plan.steps last.step.result.joinedName destination
      (.fresh s) with
  | ok report w => exact ⟨fun _ => ⟨report,w,rfl⟩,fun _ => ⟨report,_,rfl⟩⟩
  | error e w => simp

/-- Without dots a plan for a query that has no composite vertex yet is in order. -/
theorem inOrder_of_dotless {steps : List PlanStep} (h : Chain q steps u)
    (hlast : steps.getLast? = some last) (hd : q.Dotless) (hplain : ∀ n, ¬q.Composite n) :
    InOrder last.step.result.joinedName (planned q last.step.result.joinedName steps) := by
  have hfinal := h.composite hlast
  obtain ⟨names,hledger,hsorted,hmem⟩ := ledger?_some h hd hfinal.live List.Pairwise.nil
    fun n => show n ∈ [] ↔ q.Composite n ∧ n ∈ (modes (q.cachedItems .whole) _ steps).2 from
      ⟨fun hn => absurd hn List.not_mem_nil,fun hn => absurd hn.1 (hplain n)⟩
  have hnames : names = [last.step.result.joinedName] := by
    refine List.Pairwise.eq_of_mem_iff hsorted (List.pairwise_singleton _ _) fun n => ?_
    rw [hmem,List.mem_singleton]
    exact ⟨And.right,fun hn => ⟨hn ▸ hfinal,hn⟩⟩
  rw [InOrder,planned,hledger,hnames,Option.map_some,List.filter_cons,if_pos (by simp),
    List.filter_nil]

/-- When a plan can be run. For every query that is built and that validation accepts and for every
solved plan with a step, whatever the rules and the configurations, if commits succeed, if the
containers that cached items name are there and if the destination is free: the run answers exactly
when its ledger is in order, that is, when every step finds the entries that it needs and no entry
that must be new exists. It answers for all queries whose names have no dots. -/
theorem run_answers {d : Description} {rules : List Rule} {search : SearchConfig}
    (hq : d.build = .ok q) (hv : q.violations = []) (hr : ∀ rule ∈ rules, rule ∈ Rule.builtIn)
    (h : Plan.ofQuery rules search q = .ok plan) (hs : plan.isSolved = true)
    (hlast : plan.steps.getLast? = some last) (hc : s.failsCommits = false)
    (hcached : ∀ item source, (q.cachedItems .whole).find? item = some source →
      ∃ c, s.containers.find? source = some c ∧ c.Kept)
    (hd : destination ∉ s.containers.keys) :
    (Answers config plan destination s ↔
      InOrder last.step.result.joinedName (planned q last.step.result.joinedName plan.steps)) ∧
    (q.Dotless → Answers config plan destination s) := by
  have hw := Description.written_build hq
  obtain ⟨hstart,hsteps⟩ := Plan.chain hr hw (Plan.comparable_of_isSolved hq hr h hs) hv h
  obtain ⟨es,hes⟩ := Option.isSome_iff_exists.mp hs
  obtain ⟨u,hchain,-⟩ := hsteps es hes
  have hprovided : Provided s (planned q last.step.result.joinedName plan.steps) := by
    intro p hm container hfetch
    obtain ⟨item,hitem⟩ := find?_of_commonSource (find?_of_fetch hm hfetch)
    exact hcached item container hitem
  have hiff : Answers config plan destination s ↔
      InOrder last.step.result.joinedName (planned q last.step.result.joinedName plan.steps) := by
    rw [answers_iff hs hstart hlast]
    have hrun := outcome_runPlan config hchain.carried hc hprovided hd
    rw [Outcome] at hrun
    cases hw : runPlan config q plan.steps last.step.result.joinedName destination (.fresh s) with
    | ok report w =>
      rw [hw] at hrun
      exact ⟨fun _ => hrun,fun _ => ⟨report,w,rfl⟩⟩
    | error e w =>
      rw [hw] at hrun
      refine ⟨fun hok => ?_,fun horder => absurd horder hrun⟩
      obtain ⟨report,w',hok⟩ := hok
      cases hok
  refine ⟨hiff,fun hdots => hiff.mpr (inOrder_of_dotless hchain hlast hdots fun n hn => ?_)⟩
  obtain ⟨i,x,hx,hk,-⟩ := hn
  exact (hw.item hx).plain hk

/-- A description that is built, that validation accepts and for which a plan is found, if computing
shows it. -/
theorem exists_solved {d : Description} {c : Query → Plan → PlanStep → Bool}
    (h : (d.build.toOption.any fun q => decide (q.violations = []) &&
      (Plan.ofQuery Rule.builtIn .standard q).toOption.any fun plan =>
        plan.isSolved && plan.steps.getLast?.any (c q plan)) = true) :
    ∃ q plan last, d.build = .ok q ∧ q.violations = [] ∧
      Plan.ofQuery Rule.builtIn .standard q = .ok plan ∧ plan.isSolved = true ∧
      plan.steps.getLast? = some last ∧ c q plan last = true := by
  cases hq : d.build with
  | error e =>
    rw [hq] at h
    cases h
  | ok q =>
    rw [hq] at h
    obtain ⟨hv,hplan⟩ := Bool.and_eq_true_iff.mp h
    cases hp : Plan.ofQuery Rule.builtIn .standard q with
    | error e =>
      rw [hp] at hplan
      cases hplan
    | ok plan =>
      rw [hp] at hplan
      obtain ⟨hs,hlast⟩ := Bool.and_eq_true_iff.mp hplan
      obtain ⟨last,hlast,hcheck⟩ := Option.any_eq_true _ _ |>.mp hlast
      exact ⟨q,plan,last,rfl,of_decide_eq_true hv,hp,hs,hlast,hcheck⟩

theorem dotless_of_all {q : Query}
    (h : (q.items.live.all fun x => x.names.all fun n => '.' ∉ n.toList) = true) : q.Dotless := by
  intro i x n hx hn
  exact of_decide_eq_true (List.all_eq_true.mp
    (List.all_eq_true.mp h x (Arena.mem_live.mpr ⟨i.index,hx⟩)) n hn)

/-- Three vertices and two edges, as described. One of the edges joins A and B. -/
def branching (third : String) : Description :=
  ⟨"q","",⟨[⟨"A",none,none⟩,⟨"B",none,none⟩,⟨third,none,none⟩],
    [⟨"Y","A","B",false,none,none⟩,⟨"Z","A",third,false,none,none⟩],[],[],[]⟩,[]⟩

/-- A run answers for names without dots. It does not if the third vertex has the joined names of
the other two and of the edge between them. -/
theorem run_answers_branching :
    (∃ q plan, (branching "C").build = .ok q ∧ q.violations = [] ∧
      Plan.ofQuery Rule.builtIn .standard q = .ok plan ∧ plan.isSolved = true ∧
      Answers .standard plan "out" .empty) ∧
    ∃ q plan, (branching "A.B.Y").build = .ok q ∧ q.violations = [] ∧
      Plan.ofQuery Rule.builtIn .standard q = .ok plan ∧ plan.isSolved = true ∧
      ¬Answers .standard plan "out" .empty := by
  have hfree : "out" ∉ Store.empty.containers.keys := List.not_mem_nil
  have huncached : ∀ {q : Query}, (q.cachedItems .whole).entries = [] → ∀ item source,
      (q.cachedItems .whole).find? item = some source →
        ∃ c, Store.empty.containers.find? source = some c ∧ c.Kept := by
    intro q hq item source hfound
    rw [OrderedMap.find?,hq] at hfound
    cases hfound
  constructor
  · obtain ⟨q,plan,last,hq,hv,hplan,hs,hlast,hcheck⟩ := exists_solved (d:=branching "C")
      (c:=fun q _ _ => decide ((q.cachedItems .whole).entries = []) &&
        q.items.live.all fun x => x.names.all fun n => '.' ∉ n.toList) (by
        rw [Description.build,Description.addAll_flat rfl]
        decide +kernel)
    obtain ⟨hcached,hdotless⟩ := Bool.and_eq_true_iff.mp hcheck
    exact ⟨q,plan,hq,hv,hplan,hs,(run_answers hq hv (fun _ hr => hr) hplan hs hlast rfl
      (huncached (of_decide_eq_true hcached)) hfree).2 (dotless_of_all hdotless)⟩
  · obtain ⟨q,plan,last,hq,hv,hplan,hs,hlast,hcheck⟩ := exists_solved (d:=branching "A.B.Y")
      (c:=fun q plan last => decide ((q.cachedItems .whole).entries = []) &&
        decide ¬InOrder last.step.result.joinedName
          (planned q last.step.result.joinedName plan.steps)) (by
        rw [Description.build,Description.addAll_flat rfl]
        decide +kernel)
    obtain ⟨hcached,horder⟩ := Bool.and_eq_true_iff.mp hcheck
    exact ⟨q,plan,hq,hv,hplan,hs,fun hrun => of_decide_eq_true horder
      ((run_answers hq hv (fun _ hr => hr) hplan hs hlast rfl
        (huncached (of_decide_eq_true hcached)) hfree).1.mp hrun)⟩

end Execution

end GraphPattern
