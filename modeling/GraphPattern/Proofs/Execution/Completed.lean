import GraphPattern.Proofs.Execution.Stored
import GraphPattern.Proofs.Rule.Plain
import GraphPattern.Session

/-!
# What a session stores

A session that completes has stored the answers to its query. Without annotated subqueries these are
given by the assignments of objects to the vertices without annotation that satisfy the query: every
match holds what one of them holds, and each of them occurs in one match.
-/

namespace GraphPattern

open Matches Query Step Workspace

variable {q : Query} {plan : Plan} {report : ExecutionReport} {destination : String} {s s' : Store}

/-- A run that answers has run the steps of a solved plan, of which there is a last one. -/
theorem Execution.exists_runPlan {config : ExecutionConfig}
    (h : run config plan destination s = .ok report s') : plan.isSolved = true ∧
      ∃ start last w, plan.graph.state? .start = some start ∧ plan.steps.getLast? = some last ∧
        runPlan config start.query plan.steps last.step.result.joinedName destination (.fresh s) =
          .ok report w ∧ w.dropRegistry.store = s' := by
  cases hs : plan.isSolved with
  | false =>
    rw [run,hs] at h
    cases h
  | true =>
    rw [run,hs] at h
    cases hstart : plan.graph.state? .start with
    | none =>
      rw [hstart] at h
      cases h
    | some start =>
      cases hlast : plan.steps.getLast? with
      | none =>
        rw [hstart,hlast] at h
        cases h
      | some last =>
        rw [hstart,hlast] at h
        change onStore _ s = _ at h
        rw [onStore,EStateM.run] at h
        split at h
        · rename_i report' w hrun
          cases h
          exact ⟨rfl,start,last,w,rfl,rfl,hrun,rfl⟩
        · cases h

namespace Session

variable {rules : List Rule} {settings : Settings}

/-- A query that is compiled keeps all rules and has a plan. -/
theorem of_compiled {config : SearchConfig} (h : compile rules config q = .ok (.compiled plan)) :
    q.violations = [] ∧ Plan.ofQuery rules config q = .ok plan := by
  rw [compile] at h
  cases hv : q.violations with
  | cons v vs =>
    rw [hv] at h
    cases h
  | nil =>
    cases hplan : Plan.ofQuery rules config q with
    | error e =>
      rw [hv,hplan] at h
      cases h
    | ok found =>
      rw [hv,hplan] at h
      change Except.ok (if found.isSolved then _ else _) = Except.ok _ at h
      split at h
      · cases h
        exact ⟨rfl,rfl⟩
      · cases h

/-- A session that completes has compiled its query and run the plan. -/
theorem exists_run (h : run rules settings q destination s = .ok (.completed plan report) s') :
    compile rules settings.search q = .ok (.compiled plan) ∧
      Execution.run settings.execution plan destination s = .ok report s' := by
  rw [run] at h
  cases hc : compile rules settings.search q with
  | error e =>
    rw [hc] at h
    cases h
  | ok outcome =>
    rw [hc] at h
    cases outcome with
    | invalid violations => cases h
    | noSolution plan => cases h
    | compiled found =>
      obtain ⟨_,_,⟨⟩,h⟩ := bind_eq_ok.mp h
      obtain ⟨report',t,hrun,hpure⟩ := bind_eq_ok.mp h
      cases hpure
      exact ⟨rfl,hrun⟩

/-- Matching is exact. For every query that is built, in which no subquery is annotated and which
caches no items, for every store, every free name and all settings: if the session completes, the
container of that name holds one match for each assignment of objects to the vertices without
annotation that satisfies the query, and the match holds what the assignment does. -/
theorem run_exact {d : Description} (hq : d.build = .ok q) (hbounds : q.Unbounded)
    (hcached : q.cachedItems .whole = .empty) (hs : s.Keyed) (hd : destination ∉ s.containers.keys)
    (h : run Rule.builtIn settings q destination s = .ok (.completed plan report) s') :
    ∃ O L : Rows, s'.containers.find? destination =
        some ⟨⟨Column.matched,O⟩,⟨Column.matched,L⟩⟩ ∧ Proper (O,L) ∧
      ∃ f : Int → q.Assignment, Set.BijOn f (numbers (O,L)) {f | q.Satisfies s f} ∧
        ∀ g ∈ numbers (O,L), bound (O,L) g = q.holding s (f g) := by
  obtain ⟨hcompiled,hrun⟩ := exists_run h
  obtain ⟨hv,hplan⟩ := of_compiled hcompiled
  obtain ⟨hsolved,start,last,w,hstart,hlast,hsteps,rfl⟩ := Execution.exists_runPlan hrun
  have hw := Description.written_build hq
  obtain ⟨hf,F,es,hfirst,hpath⟩ := Plan.first_of_isSolved (fun _ hr => hr) hw.reducible hplan hsolved
  obtain ⟨st,hst,rfl⟩ := hf.start
  rw [hst] at hstart
  cases hstart
  have hdefinite := (hfirst.leads.solvable (fun _ hr => hr) hst hw.wellFormed).definite hq hv
    fun {c} {_} {_} hc => absurd (hbounds c) hc
  obtain ⟨u,hu,htour⟩ := hfirst.leads.tour hf (fun _ hr => hr) hdefinite hst
  rw [← Plan.steps_eq hpath] at htour
  obtain ⟨O,L,hfound,hpresents⟩ :=
    Execution.presents_of_tour hdefinite hs htour hu hcached hlast hd hsteps
  refine ⟨O,L,(congrArg (·.find? destination) w.sameData_dropRegistry.containers).trans hfound,
    hpresents.toProper,?_⟩
  have hholding := bijOn_holding (s:=s) hdefinite hbounds fun k hk n hn => by
    obtain ⟨c,hk⟩ := hk
    exact exists_named_of_violations hw.wellFormed hv hk hn
  have hinv := hholding.invOn_invFunOn
  refine ⟨_,(hholding.symm hinv.symm).comp hpresents.bijOn,fun g hg => ?_⟩
  exact (hinv.2 (hpresents.bijOn.mapsTo hg)).symm

/-- Whether a session completes. -/
def completes (rules : List Rule) (settings : Settings) (q : Query) (destination : String)
    (s : Store) : Bool :=
  match run rules settings q destination s with
  | .ok (.completed _ _) _ => true
  | _ => false

theorem exists_completed (h : completes rules settings q destination s = true) :
    ∃ plan report s', run rules settings q destination s = .ok (.completed plan report) s' := by
  rw [completes] at h
  split at h
  · rename_i plan report s' hrun
    exact ⟨plan,report,s',hrun⟩
  · cases h

/-- Two vertices whose objects have an attribute in common and that an edge joins in any direction,
and a third one that occurs at most twice, as described. -/
def meeting : Description :=
  ⟨"q","",⟨[⟨"A",none,none⟩,⟨"B",none,some ⟨none,some 2⟩⟩,⟨"C",none,none⟩],
    [⟨"e","A","B",true,none,some ⟨none,some 2⟩⟩,⟨"f","A","C",false,none,none⟩],
    [⟨"eq",.item "A" (some "x"),.item "C" (some "x"),none,none⟩],[],[]⟩,[]⟩

/-- Three objects, and links from the first one to the other two. -/
def fork : Store :=
  { Store.empty with
    objects := ((OrderedMap.empty.insert 1 (OrderedMap.empty.insert "x" (.int 1))).insert 2
      (OrderedMap.empty.insert "x" (.int 1))).insert 3 .empty
    links := (OrderedMap.empty.insert 1 ⟨1,2,.empty⟩).insert 2 ⟨1,3,.empty⟩ }

/-- A session that completes stores the assignments that satisfy its query. -/
theorem run_exact_meeting : ∃ q plan report s', meeting.build = .ok q ∧
    run Rule.builtIn .standard q "out" fork = .ok (.completed plan report) s' ∧
      ∃ O L : Rows, s'.containers.find? "out" = some ⟨⟨Column.matched,O⟩,⟨Column.matched,L⟩⟩ ∧
        ∃ f : Int → q.Assignment, Set.BijOn f (numbers (O,L)) {f | q.Satisfies fork f} := by
  have heval : (meeting.build.toOption.any fun q =>
      (q.containers.live.all fun C => C.bounds.isNone) && (q.cachedItems .whole).entries.isEmpty &&
        completes Rule.builtIn .standard q "out" fork) = true := by
    rw [Description.build,Description.addAll_flat rfl]
    decide +kernel
  cases hq : meeting.build with
  | error e =>
    rw [hq] at heval
    cases heval
  | ok q =>
    rw [hq] at heval
    simp only [Except.toOption,Option.any_some,Bool.and_eq_true,List.all_eq_true,
      Option.isNone_iff_eq_none,List.isEmpty_iff] at heval
    obtain ⟨⟨hbounds,hcached⟩,hcompletes⟩ := heval
    obtain ⟨plan,report,s',hrun⟩ := exists_completed hcompletes
    obtain ⟨O,L,hfound,-,f,hf,-⟩ := run_exact hq (fun c => by
      cases hC : q.container? c with
      | none =>
        rw [subqueryBounds,hC]
        rfl
      | some C => exact (subqueryBounds_of_some hC).trans (hbounds C (Arena.mem_live.mpr ⟨_,hC⟩)))
      (congrArg OrderedMap.mk hcached) ⟨by decide,by decide⟩ List.not_mem_nil hrun
    exact ⟨q,plan,report,s',rfl,hrun,O,L,hfound,f,hf⟩

end Session

end GraphPattern
