import GraphPattern.Proofs.Execution.Completed
import GraphPattern.Proofs.Plan.Solution

/-!
# Whichever path is run

A search follows only one of the queries with a given content, so a path in its graph may go on from
another query than the one that a step has made. If texts tell the constraints apart, both have the
same composite vertices and the same constraints. Every path to a consolidated query is then a tour,
and all tours store the same matches.
-/

namespace GraphPattern

open Matches Rule Step Workspace

namespace Query

variable {q₀ p q : Query} {f g : ItemId → ItemId} {k : Constraint}

/-- Constraints with the same text state the same relation. -/
def Worded (q : Query) : Prop :=
  ∀ k ∈ q.allDeclared, ∀ l ∈ q.allDeclared, k.text = l.text → k.sameRelation l = true

theorem mem_allDeclared (hk : k ∈ q.constraints .whole) : k ∈ q.allDeclared := by
  obtain ⟨c,C,hC,hk⟩ := exists_container_of_mem hk
  exact ⟨c,mem_declared.mpr ⟨C,hC,hk⟩⟩

/-- Queries with the same content declare constraints of the same texts. -/
theorem exists_text_of_content (hp : p.WellFormed) (h : p.content = q.content)
    (hk : k ∈ p.allDeclared) : ∃ l ∈ q.allDeclared, l.text = k.text := by
  obtain ⟨c,hk⟩ := hk
  obtain ⟨C,hC,hk⟩ := mem_declared.mp hk
  have htext : k.text ∈ q.content.constraints := by
    rw [← h]
    exact (sortBy_perm _ _).mem_iff.mpr (List.mem_map_of_mem (mem_constraints hp hC hk))
  obtain ⟨l,hl,he⟩ := List.mem_map.mp ((sortBy_perm _ _).mem_iff.mp htext)
  exact ⟨l,mem_allDeclared hl,he⟩

/-- Queries with the same content that have come from one query agree, if texts tell its constraints
apart. -/
theorem agrees_of_content (h₀ : q₀.Definite) (hworded : q₀.Worded) (hp : q₀.Lineal p f)
    (hq : q₀.Lineal q g) (h : p.content = q.content) : p.Agrees q := by
  have hoccurs : ∀ {p q : Query}, p.content = q.content → ∀ {i x}, p.item? i = some x →
      x.kind = .composite → q.Occurs x := by
    intro p q h i x hx hk
    obtain ⟨j,z,hz,he⟩ := exists_identity_of_content h hx
    have hkind : z.kind = .composite := (congrArg ItemIdentity.kind he).trans hk
    refine ⟨j,z,hz,hkind,congrArg ItemIdentity.names he,?_⟩
    have horigin := congrArg ItemIdentity.origin he
    simp only [Item.identity,hk,hkind,ItemClass.bearsProvenance,if_true] at horigin
    have hitem := congrArg (Option.map Prod.snd) horigin
    rwa [Option.map_map,Option.map_map] at hitem
  refine ⟨hoccurs h,hoccurs h.symm,fun k hk => ?_⟩
  obtain ⟨l,hl,htext⟩ := exists_text_of_content hp.wellFormed h hk
  have hold : ∀ {p : Query} {f}, q₀.Lineal p f → ∀ {k}, k ∈ p.allDeclared → k ∈ q₀.allDeclared := by
    intro p f hp k hk
    obtain ⟨c,hk⟩ := hk
    exact ⟨c,hp.declared hk⟩
  have hsame := hworded l (hold hq hl) k (hold hp hk) htext
  exact ⟨l,hl,hsame,h₀.noted (hold hq hl) (hold hp hk) hsame⟩

end Query

namespace SearchGraph

open Query

variable {g : SearchGraph} {rules : List Rule} {q₀ : Query} {s t : StateId} {es : List StepId}

/-- The states of a search agree with what the steps reduce to, if texts tell the constraints
apart. -/
theorem Faithful.agreeing (h : g.Faithful rules q₀) (hr : AllBuiltIn rules) (h₀ : q₀.Definite)
    (hworded : q₀.Worded) (e : StepId) : g.Agreeing rules e := by
  intro x a b q' found ha hb hx hcontent
  obtain ⟨f,hf⟩ := h.lineal hr h₀ ha
  obtain ⟨k,hk⟩ := h.lineal hr h₀ hb
  obtain ⟨out,hred,-⟩ := reducible_of_carries hr hf.reducible hx
  exact agrees_of_content h₀ hworded (hf.step h₀.regular hred) hk hcontent

/-- The query of a state from which a path leads to a goal can be solved. -/
theorem Faithful.solvable_of_path (h : g.Faithful rules q₀) (hr : AllBuiltIn rules)
    (h₀ : q₀.Regular) (hp : g.Path s es t) (hgoal : g.isGoal t = true) {a : SearchState}
    (ha : g.state? s = some a) : a.query.Solvable := by
  induction hp generalizing a with
  | nil s =>
    rw [isGoal,ha,Option.any_some] at hgoal
    exact ⟨a.query,.refl,hgoal⟩
  | @cons s t e es x found source rest ih =>
    obtain ⟨a',b,q',ha',hb,hx,hcontent⟩ := h.step found
    rw [source,ha] at ha'
    cases ha'
    have hreduced := h.reduced hr h₀.wellFormed ha
    obtain ⟨out,hred⟩ := exists_reduction hr (h.wellFormed hr h₀.wellFormed ha) hx
    have hstep : a.query.ReducesTo q' := ⟨_,_,out,hred⟩
    -- Another query of the same content may be followed, but it can be solved as well.
    exact (Solvable.of_content h₀ (hreduced.tail hstep) (h.reduced hr h₀.wellFormed hb) hcontent
      (ih hgoal hb)).head hstep

/-- The state to which some steps lead, if they come one after another. -/
def follow? (g : SearchGraph) : StateId → List StepId → Option StateId
  | s, [] => some s
  | s, e :: es => do
    let x ← g.step? e
    if x.source = s then g.follow? x.target es else none

/-- Steps that come one after another form a path. -/
theorem path_of_follow? (h : g.follow? s es = some t) : g.Path s es t := by
  induction es generalizing s with
  | nil =>
    cases h
    exact .nil _
  | cons e es ih =>
    obtain ⟨x,found,h⟩ := Option.bind_eq_some_iff.mp h
    obtain ⟨source,h⟩ := Option.ite_none_right_eq_some.mp h
    exact .cons found source (ih h)

end SearchGraph

namespace Plan

/-- The plan whose steps are those of a path. -/
def along (plan : Plan) (es : List StepId) : Plan := { plan with path := some es }

end Plan

namespace Execution

open Query

variable {d : Description} {q : Query} {plan : Plan} {rules : List Rule} {search : SearchConfig}
  {config config₀ config₁ : ExecutionConfig} {s s' s₀ s₁ : Store} {t t₀ t₁ : StateId}
  {es es₀ es₁ : List StepId} {destination destination₀ destination₁ : String}
  {report report₀ report₁ : ExecutionReport}

/-- A run along a path to a consolidated query stores what fits all items and all constraints. -/
theorem presents_of_path (hq : d.build = .ok q) (hv : q.violations = [])
    (hcached : q.cachedItems .whole = .empty) (hhoused : q.Housed) (hworded : q.Worded)
    (hr : ∀ rule ∈ rules, rule ∈ Rule.builtIn) (hplan : Plan.ofQuery rules search q = .ok plan)
    (hs : s.Keyed) (hp : plan.graph.Path .start es t)
    (hgoal : plan.graph.isGoal t = true)
    (hrun : run config (plan.along es) destination s = .ok report s') :
    ∃ O L : Rows, s'.containers.find? destination =
      some ⟨⟨Column.matched,O⟩,⟨Column.matched,L⟩⟩ ∧ Presents (O,L) (q.answers s) := by
  have hf : plan.graph.Faithful rules q := by
    obtain ⟨o,p,hsearch,rfl⟩ := Plan.run_of_ofQuery hplan
    exact (Search.run_kept hsearch).faithful
  have hreg := regular_of_violations (Description.written_build hq).wellFormed hv
  obtain ⟨st,hst,rfl⟩ := hf.start
  have h₀ := (hf.solvable_of_path hr hreg hp hgoal hst).definite hq hv hhoused
  obtain ⟨b,hb,htour⟩ := hf.tour hr h₀ hp (fun e _ => hf.agreeing hr h₀ hworded e) hst
  have hconsolidated : b.query.isConsolidated = true := by
    rwa [SearchGraph.isGoal,hb,Option.any_some] at hgoal
  obtain ⟨-,start,last,w,hstart,hlast,hsteps,rfl⟩ := exists_runPlan hrun
  cases hst.symm.trans hstart
  rw [show (plan.along es).steps = es.filterMap plan.graph.planStep? from
    Plan.steps_eq rfl] at hlast hsteps
  rw [runPlan_eq] at hsteps
  obtain ⟨⟨⟩,w₁,hclear,hsteps⟩ := bind_eq_ok.mp hsteps
  obtain ⟨s₁,rfl,ho,hl,hd,-⟩ := (outcome_clearDestination _ _ _).of_eq hclear
  obtain ⟨O,L,hfound,hpresents⟩ :=
    presents_of_cleared h₀ hs htour hconsolidated hcached hlast ho hl hd hsteps
  exact ⟨O,L,(congrArg (·.find? destination) w.sameData_dropRegistry.containers).trans hfound,
    hpresents⟩

/-- It does not matter which path is run. For every query that is built, that validation accepts and
that caches no items, whatever the rules, the configurations, the store and the names of the
containers: if the runs along two paths in the graph of the search to consolidated queries answer,
they store the same matches, up to the order of rows and the numbers of matches. A constraint about
items of an annotated subquery alone has to be declared there: otherwise some paths enforce it on
the matches of the subquery and others on the matches that they are part of. And texts have to tell
the constraints apart: otherwise a path can leave one out. -/
theorem sameMatches_of_paths (hq : d.build = .ok q) (hv : q.violations = [])
    (hcached : q.cachedItems .whole = .empty) (hhoused : q.Housed) (hworded : q.Worded)
    (hr : ∀ rule ∈ rules, rule ∈ Rule.builtIn) (hplan : Plan.ofQuery rules search q = .ok plan)
    (hs : s.Keyed) (hp₀ : plan.graph.Path .start es₀ t₀)
    (hgoal₀ : plan.graph.isGoal t₀ = true) (hp₁ : plan.graph.Path .start es₁ t₁)
    (hgoal₁ : plan.graph.isGoal t₁ = true)
    (hrun₀ : run config₀ (plan.along es₀) destination₀ s = .ok report₀ s₀)
    (hrun₁ : run config₁ (plan.along es₁) destination₁ s = .ok report₁ s₁) :
    ∃ c₀ c₁, s₀.containers.find? destination₀ = some c₀ ∧
      s₁.containers.find? destination₁ = some c₁ ∧ SameMatches c₀ c₁ := by
  obtain ⟨O₀,L₀,hfound₀,hpresents₀⟩ := presents_of_path hq hv hcached hhoused hworded hr hplan hs
    hp₀ hgoal₀ hrun₀
  obtain ⟨O₁,L₁,hfound₁,hpresents₁⟩ := presents_of_path hq hv hcached hhoused hworded hr hplan hs
    hp₁ hgoal₁ hrun₁
  exact ⟨_,_,hfound₀,hfound₁,rfl,rfl,hpresents₀.alike hpresents₁⟩

/-- What a run along a path stores, if it answers. -/
def stored? (plan : Plan) (es : List StepId) (destination : String) (s : Store) :
    Option StoredContainer :=
  match run .standard (plan.along es) destination s with
  | .ok _ s' => s'.containers.find? destination
  | .error _ _ => none

theorem exists_of_stored? {c : StoredContainer} (h : stored? plan es destination s = some c) :
    ∃ report s', run .standard (plan.along es) destination s = .ok report s' ∧
      s'.containers.find? destination = some c := by
  rw [stored?] at h
  split at h
  · rename_i report s' hrun
    exact ⟨report,s',hrun,h⟩
  · cases h

/-- Containers that hold the same matches hold equally many rows for objects. -/
theorem SameMatches.length_eq {c c' : StoredContainer} (h : SameMatches c c') :
    c'.objects.rows.length = c.objects.rows.length := by
  obtain ⟨-,-,σ,ho,-⟩ := h
  exact ho.length_eq.trans (List.length_map _)

/-- A query in which constraints are declared in the only annotated subquery at most. -/
theorem housed_of_all (h : (q.containers.indexed.all fun C => C.2.constraints.isEmpty ||
    q.containers.indexed.all fun D => D.2.bounds.isNone || C.1 = D.1) = true) : q.Housed := by
  intro c d k hc hk _
  obtain ⟨C,hC,hk⟩ := mem_declared.mp hk
  cases hD : q.container? c with
  | none =>
    rw [subqueryBounds,hD] at hc
    exact absurd rfl hc
  | some D =>
    rw [subqueryBounds_of_some hD] at hc
    have hone := List.all_eq_true.mp h (d.index,C) (Arena.mem_indexed.mpr hC)
    rw [List.isEmpty_eq_false_iff.mpr (List.ne_nil_of_mem hk),Bool.false_or] at hone
    have hsame := List.all_eq_true.mp hone (c.index,D) (Arena.mem_indexed.mpr hD)
    rw [Option.isNone_eq_false_iff.mpr (Option.isSome_iff_ne_none.mpr hc),Bool.false_or] at hsame
    exact congrArg ContainerId.mk (of_decide_eq_true hsame)

theorem worded_of_all (hw : q.WellFormed) (h : ((q.constraints .whole).all fun k =>
    (q.constraints .whole).all fun l => k.text ≠ l.text || k.sameRelation l) = true) :
    q.Worded := by
  rintro k ⟨c,hk⟩ l ⟨d,hl⟩ htext
  obtain ⟨C,hC,hk⟩ := mem_declared.mp hk
  obtain ⟨D,hD,hl⟩ := mem_declared.mp hl
  have hall := List.all_eq_true.mp (List.all_eq_true.mp h k (mem_constraints hw hC hk)) l
    (mem_constraints hw hD hl)
  rwa [decide_eq_false (not_not_intro htext),Bool.false_or] at hall

/-- A vertex and an edge to an annotated subquery, one object of which has the value seven, as
described. The subquery declares that itself, or the query does. -/
def sheltered (inside : Bool) : Description :=
  let seven : ConstraintEntry := ⟨"eq",.item "C" (some "x"),.literal (.int 7),none,none⟩
  ⟨"q","",⟨[⟨"A",none,none⟩],[⟨"e","A","C",true,none,some ⟨some 1,none⟩⟩],
    if inside then [] else [seven],[],[]⟩,
    [.mk (some ⟨some 1,none⟩) ⟨[⟨"C",none,none⟩],[],if inside then [seven] else [],[],[]⟩ []]⟩

/-- Three objects, one of which has the value seven, and links from the first one to the others. -/
def spread : Store :=
  { Store.empty with
    objects := ⟨[(1,.empty),(2,OrderedMap.empty.insert "x" (.int 7)),(3,.empty)]⟩
    links := ⟨[(1,⟨1,2,.empty⟩),(2,⟨1,3,.empty⟩)]⟩ }

/-- Two paths with a check of what is stored along them, if computing shows it. -/
theorem exists_paths {d : Description} {x y : List StepId} {c : Query → Bool} {m n : Nat}
    (h : (d.build.toOption.any fun q => decide (q.violations = []) && c q &&
      (Plan.ofQuery Rule.builtIn ⟨true,none⟩ q).toOption.any fun plan =>
        (plan.graph.follow? .start x).any plan.graph.isGoal &&
        (plan.graph.follow? .start y).any plan.graph.isGoal &&
        (stored? plan x "out" spread).any (·.objects.rows.length = m) &&
        (stored? plan y "out" spread).any (·.objects.rows.length = n)) = true) :
    ∃ q plan t₀ t₁ c₀ c₁, d.build = .ok q ∧ q.violations = [] ∧ c q = true ∧
      Plan.ofQuery Rule.builtIn ⟨true,none⟩ q = .ok plan ∧
      (plan.graph.Path .start x t₀ ∧ plan.graph.isGoal t₀ = true) ∧
      (plan.graph.Path .start y t₁ ∧ plan.graph.isGoal t₁ = true) ∧
      (stored? plan x "out" spread = some c₀ ∧ c₀.objects.rows.length = m) ∧
      stored? plan y "out" spread = some c₁ ∧ c₁.objects.rows.length = n := by
  obtain ⟨q,hq,h⟩ := Option.any_eq_true _ _ |>.mp h
  simp only [Bool.and_eq_true,decide_eq_true_eq,Option.any_eq_true] at h
  obtain ⟨⟨hv,hc⟩,plan,hplan,⟨⟨⟨t₀,ht₀,hg₀⟩,t₁,ht₁,hg₁⟩,c₀,hc₀,hm⟩,c₁,hc₁,hn⟩ := h
  exact ⟨q,plan,t₀,t₁,c₀,c₁,Plan.ok_of_toOption hq,hv,hc,Plan.ok_of_toOption hplan,
    ⟨SearchGraph.path_of_follow? ht₀,hg₀⟩,⟨SearchGraph.path_of_follow? ht₁,hg₁⟩,⟨hc₀,hm⟩,hc₁,hn⟩

/-- Along two paths the same is stored if the subquery declares its constraint itself. It is not if
the query does: one path enforces it on the matches of the subquery, the other one after these have
been gathered. -/
theorem sameMatches_of_paths_sheltered :
    (∃ q plan c₀ c₁, (sheltered true).build = .ok q ∧
      Plan.ofQuery Rule.builtIn ⟨true,none⟩ q = .ok plan ∧
      stored? plan ([0,1,2,3,4].map .mk) "out" spread = some c₀ ∧
      stored? plan ([5,7,9,10,4].map .mk) "out" spread = some c₁ ∧ SameMatches c₀ c₁) ∧
    ∃ q plan t₀ t₁ c₀ c₁, (sheltered false).build = .ok q ∧ q.violations = [] ∧
      Plan.ofQuery Rule.builtIn ⟨true,none⟩ q = .ok plan ∧
      (plan.graph.Path .start ([0,1,2,3,4].map .mk) t₀ ∧ plan.graph.isGoal t₀ = true) ∧
      (plan.graph.Path .start ([0,1,5,6,7].map .mk) t₁ ∧ plan.graph.isGoal t₁ = true) ∧
      stored? plan ([0,1,2,3,4].map .mk) "out" spread = some c₀ ∧
      stored? plan ([0,1,5,6,7].map .mk) "out" spread = some c₁ ∧ ¬SameMatches c₀ c₁ := by
  constructor
  · obtain ⟨q,plan,t₀,t₁,c₀,c₁,hq,hv,hc,hplan,⟨hp₀,hg₀⟩,⟨hp₁,hg₁⟩,⟨hc₀,-⟩,hc₁,-⟩ :=
      exists_paths (d:=sheltered true) (x:=[0,1,2,3,4].map .mk) (y:=[5,7,9,10,4].map .mk)
        (m:=2) (n:=2) (c:=fun q => (q.cachedItems .whole).entries.isEmpty &&
          (q.containers.indexed.all fun C => C.2.constraints.isEmpty ||
            q.containers.indexed.all fun D => D.2.bounds.isNone || C.1 = D.1) &&
          (q.constraints .whole).all fun k =>
            (q.constraints .whole).all fun l => k.text ≠ l.text || k.sameRelation l) (by
        rw [Description.build,Description.addAll,sheltered]
        simp only [Description.addSubqueries]
        decide +kernel)
    obtain ⟨⟨hcached,hhoused⟩,hworded⟩ := by simpa only [Bool.and_eq_true] using hc
    obtain ⟨report₀,s₀,hrun₀,hfound₀⟩ := exists_of_stored? hc₀
    obtain ⟨report₁,s₁,hrun₁,hfound₁⟩ := exists_of_stored? hc₁
    obtain ⟨c,c',hc,hc',hsame⟩ := sameMatches_of_paths hq hv
      (congrArg OrderedMap.mk (List.isEmpty_iff.mp hcached)) (housed_of_all hhoused)
      (worded_of_all (Description.written_build hq).wellFormed hworded) (fun _ hr => hr) hplan
      ⟨by decide,by decide⟩ hp₀ hg₀ hp₁ hg₁ hrun₀ hrun₁
    rw [hfound₀] at hc
    rw [hfound₁] at hc'
    cases hc
    cases hc'
    exact ⟨q,plan,c₀,c₁,hq,hplan,hc₀,hc₁,hsame⟩
  · obtain ⟨q,plan,t₀,t₁,c₀,c₁,hq,hv,-,hplan,hp₀,hp₁,⟨hc₀,hm⟩,hc₁,hn⟩ :=
      exists_paths (d:=sheltered false) (x:=[0,1,2,3,4].map .mk) (y:=[0,1,5,6,7].map .mk)
        (m:=3) (n:=2) (c:=fun _ => true) (by
        rw [Description.build,Description.addAll,sheltered]
        simp only [Description.addSubqueries]
        decide +kernel)
    refine ⟨q,plan,t₀,t₁,c₀,c₁,hq,hv,hplan,hp₀,hp₁,hc₀,hc₁,fun hsame => ?_⟩
    have hlength := hsame.length_eq
    omega

end Execution

end GraphPattern
