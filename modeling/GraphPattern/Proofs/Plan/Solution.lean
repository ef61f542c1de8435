import GraphPattern.Proofs.Plan.Exact
import GraphPattern.Proofs.Search.Sharing
import GraphPattern.Proofs.Search.Solved

/-!
# Plans and solutions

A search follows only one of the queries with a given content. It misses no solution by that: a plan
is found exactly when some sequence of rewrites leads to a consolidated query.
-/

namespace GraphPattern

open Relation SearchGraph

namespace Query

/-- What can be solved by reductions can be solved by rewrites. -/
theorem solvable_iff {q : Query} (h : q.WellFormed) :
    q.Solvable ↔ ∃ u, ReflTransGen Rewrites q u ∧ u.isConsolidated = true :=
  exists_congr fun _ => and_congr_left' (reflTransGen_rewrites_iff h).symm

end Query

namespace Plan

variable {rules : List Rule} {exhaustive : Bool} {q : Query} {plan : Plan}

/-- For a query that can be solved planning answers. -/
theorem exists_of_solvable (h₀ : q.Regular) (hr : Rule.AllBuiltIn rules) (hs : q.Solvable)
    (exhaustive : Bool) : ∃ plan, ofQuery rules ⟨exhaustive,none⟩ q = .ok plan := by
  have hdeep : Search.DeepEnough ⟨exhaustive,none⟩ (Search.depthLimit ⟨exhaustive,none⟩ q)
      (.ofQuery q) q := hs.weight_le_depthLimit h₀ exhaustive
  obtain ⟨o,p,hrun,-⟩ := Search.run_of_deepEnough hr (hs.reliable h₀) hdeep
  exact ⟨ofSearch o p,ofQuery_of_run hrun⟩

/-- A plan is solved exactly when its query can be solved. -/
theorem isSolved_iff_solvable (h₀ : q.Regular) (hr : ∀ rule, rule ∈ rules ↔ rule ∈ Rule.builtIn)
    (h : ofQuery rules ⟨exhaustive,none⟩ q = .ok plan) : plan.isSolved = true ↔ q.Solvable := by
  have hall : Rule.AllBuiltIn rules := fun rule hrule => (hr rule).mp hrule
  obtain ⟨o,p,hrun,rfl⟩ := run_of_ofQuery h
  have hk := Search.run_kept hrun
  obtain ⟨st,hst,rfl⟩ := hk.faithful.start
  rcases Search.run_standard rfl hrun with ⟨rfl,-⟩|⟨rfl,-⟩
  · have hnone : ¬st.query.Solvable := by
      cases Search.run_ended hrun with
      | exhausted shut => exact shut.not_solvable hk.faithful hr h₀ ⟨st,hst⟩ hst
    have hpath : (ofSearch .exhausted p).path = none := by
      cases Search.run_ended hrun with
      | exhausted shut => exact shut.shortestPath? ⟨st,hst⟩
    rw [isSolved,hpath]
    exact ⟨fun hs => absurd hs (by decide),fun hs => absurd hs hnone⟩
  · cases Search.run_ended hrun with
    | solved first =>
      have hacyclic := (Search.sound_of_expand (Search.expand_of_run hrun)).acyclic
      have hstraight : p.graph.Straight := hacyclic.straight fun he hx => hk.faithful.source_of_out he hx
      have hpath : (p.graph.shortestPath? .start).isSome = true :=
        (shortestPath?_isSome hstraight).mpr ⟨_,first.leads.goalIn⟩
      exact ⟨fun _ => first.leads.solvable hall hst h₀.wellFormed,fun _ => hpath⟩

/-- Deduplication loses no solution. For every query that validation accepts, for all rules of the
library in any order and for both kinds of search, without a greatest number of states: a plan is
solved exactly when a sequence of rewrites leads from the query to a consolidated one; and if one
does, planning answers. -/
theorem isSolved_iff (h : q.WellFormed) (hv : q.violations = [])
    (hr : ∀ rule, rule ∈ rules ↔ rule ∈ Rule.builtIn) (exhaustive : Bool) :
    (∀ {plan : Plan}, ofQuery rules ⟨exhaustive,none⟩ q = .ok plan →
      (plan.isSolved = true ↔ ∃ u, ReflTransGen Query.Rewrites q u ∧ u.isConsolidated = true)) ∧
    ((∃ u, ReflTransGen Query.Rewrites q u ∧ u.isConsolidated = true) →
      ∃ plan, ofQuery rules ⟨exhaustive,none⟩ q = .ok plan ∧ plan.isSolved = true) := by
  have h₀ := Query.regular_of_violations h hv
  rw [← Query.solvable_iff h]
  refine ⟨isSolved_iff_solvable h₀ hr,fun hs => ?_⟩
  obtain ⟨plan,hplan⟩ := exists_of_solvable h₀ (fun rule hrule => (hr rule).mp hrule) hs exhaustive
  exact ⟨plan,hplan,(isSolved_iff_solvable h₀ hr hplan).mpr hs⟩

theorem ok_of_toOption {ε α : Type} {x : Except ε α} {a : α} (h : x.toOption = some a) :
    x = .ok a := by
  cases x with
  | error e => cases h
  | ok b => exact congrArg Except.ok (Option.some.inj h)

/-- A description that is built, that validation accepts and that is planned, if computing shows
it. -/
theorem exists_planned {d : Description} {c : Query → Plan → Bool}
    (h : (d.build.toOption.any fun q => decide (q.violations = []) &&
      (ofQuery Rule.builtIn .standard q).toOption.any (c q)) = true) :
    ∃ q plan, d.build = .ok q ∧ q.violations = [] ∧ ofQuery Rule.builtIn .standard q = .ok plan ∧
      c q plan = true := by
  obtain ⟨q,hq,h⟩ := Option.any_eq_true _ _ |>.mp h
  obtain ⟨hv,h⟩ := Bool.and_eq_true_iff.mp h
  obtain ⟨plan,hplan,hc⟩ := Option.any_eq_true _ _ |>.mp h
  exact ⟨q,plan,ok_of_toOption hq,of_decide_eq_true hv,
    ok_of_toOption hplan,hc⟩

/-- Two vertices, an edge between them and edges to a third one that may occur any number of times,
as described. -/
def forked : Description :=
  ⟨"q","",⟨[⟨"A",none,none⟩,⟨"B",none,none⟩,⟨"C",none,some ⟨some 1,none⟩⟩],
    [⟨"d","A","B",false,none,none⟩,⟨"e","A","C",false,none,some ⟨some 1,none⟩⟩,
      ⟨"f","B","C",false,none,some ⟨some 1,none⟩⟩],[],[],[]⟩,[]⟩

/-- A vertex that occurs at most twice at the end of one edge can be solved, one at the ends of two
edges cannot. -/
theorem isSolved_iff_limited :
    (∃ q, limited.build = .ok q ∧ q.violations = [] ∧
      ∃ u, ReflTransGen Query.Rewrites q u ∧ u.isConsolidated = true) ∧
    ∃ q, forked.build = .ok q ∧ q.violations = [] ∧
      ¬∃ u, ReflTransGen Query.Rewrites q u ∧ u.isConsolidated = true := by
  constructor
  · obtain ⟨q,plan,hq,hv,hplan,hs⟩ := exists_planned (d:=limited) (c:=fun _ plan => plan.isSolved) (by
      rw [Description.build,Description.addAll_flat rfl]
      decide +kernel)
    exact ⟨q,hq,hv,((isSolved_iff (Description.written_build hq).wellFormed hv (fun _ => Iff.rfl)
      false).1 hplan).mp hs⟩
  · obtain ⟨q,plan,hq,hv,hplan,hs⟩ := exists_planned (d:=forked) (c:=fun _ plan => !plan.isSolved)
      (by
        rw [Description.build,Description.addAll_flat rfl]
        decide +kernel)
    refine ⟨q,hq,hv,fun hsolution => ?_⟩
    rw [← (isSolved_iff (Description.written_build hq).wellFormed hv (fun _ => Iff.rfl) false).1 hplan]
      at hsolution
    rw [hsolution] at hs
    cases hs

end Plan

end GraphPattern
