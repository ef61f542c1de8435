import GraphPattern.Proofs.Search.Depth
import GraphPattern.Proofs.Search.Sharing
import Mathlib.Data.List.Lex

/-!
# Shortest paths

The path that is found depth first and then followed greedily is the best one: no path to a goal is
shorter, and of those that are as long it comes first in the order in which the states list their
steps. This holds in every graph without cycles to which states and steps were added one after
another.
-/

namespace GraphPattern

open Step

namespace SearchGraph

variable {rules : List Rule} {q₀ : Query} {g : SearchGraph} {s t : StateId} {x : SearchStep}
  {e : StepId} {es fs : List StepId} {d : Nat}

/-! ## Graphs -/

/-- The graphs that can be built: a first state, then states, and steps between states that are
there. -/
inductive Built : SearchGraph → Prop
  /-- The first state. -/
  | ofQuery (q : Query) : Built (.ofQuery q)
  /-- One more state. -/
  | addState {g : SearchGraph} (built : Built g) (q : Query) : Built (g.addState q)
  /-- One more step. -/
  | addStep {g : SearchGraph} {x : SearchStep} (built : Built g) (source : g.Live x.source)
    (target : g.Live x.target) : Built (g.addStep x)

/-- A state lists exactly the steps that leave it, and steps leave states only. -/
structure Wired (g : SearchGraph) : Prop where
  /-- A state lists the steps that leave it. -/
  listed : ∀ {s st e}, g.state? s = some st →
    (e ∈ st.out ↔ ∃ x, g.step? e = some x ∧ x.source = s)
  /-- Steps leave states. -/
  source : ∀ {e x}, g.step? e = some x → g.Live x.source

theorem Faithful.wired (h : g.Faithful rules q₀) : g.Wired :=
  ⟨h.listed,fun he => (let ⟨st,_,_,hst,_⟩ := h.step he; ⟨st,hst⟩)⟩

theorem Wired.addState (h : g.Wired) (q : Query) : (g.addState q).Wired where
  listed {s st e} hs := by
    rw [state?_addState] at hs
    split at hs
    · rename_i hnew
      cases hs
      -- No step can leave a state that is not there yet.
      refine ⟨fun he => absurd he List.not_mem_nil,fun ⟨x,hx,hxs⟩ => ?_⟩
      have hlt := live_iff.mp (h.source hx)
      rw [hxs,hnew] at hlt
      exact absurd hlt (Nat.lt_irrefl _)
    · exact h.listed hs
  source he := (h.source he).grows (grows_addState g q)

theorem Wired.addStep (h : g.Wired) (hs : g.Live x.source) : (g.addStep x).Wired where
  listed := listed_addStep h.listed
  source he := by
    rcases step?_addStep_cases he with ⟨-,rfl⟩|⟨-,hold⟩
    · exact hs.grows (grows_addStep g _)
    · exact (h.source hold).grows (grows_addStep g x)

theorem Built.wired (h : g.Built) : g.Wired := by
  induction h with
  | ofQuery q => exact (faithful_ofQuery [] q).wired
  | addState _ q ih => exact ih.addState q
  | addStep _ source _ ih => exact ih.addStep source

theorem Wired.source_of_out (h : g.Wired) (he : e ∈ g.out s) (hx : g.step? e = some x) :
    x.source = s := by
  cases hs : g.state? s with
  | none =>
    rw [out,hs] at he
    cases he
  | some st =>
    rw [out_of_some hs] at he
    obtain ⟨y,hy,hsource⟩ := (h.listed hs).mp he
    rw [hx] at hy
    cases hy
    exact hsource

theorem Wired.mem_out (h : g.Wired) (hx : g.step? e = some x) : e ∈ g.out x.source := by
  obtain ⟨st,hst⟩ := h.source hx
  rw [out_of_some hst]
  exact (h.listed hst).mpr ⟨x,hx,rfl⟩

/-! ## The best path -/

/-- The place of a step in the list of the state that it leaves. -/
def place (g : SearchGraph) (e : StepId) : Nat :=
  (g.step? e).elim 0 fun x => (g.out x.source).idxOf e

/-- The places of the steps of a path. -/
def places (g : SearchGraph) (es : List StepId) : List Nat := es.map g.place

/-- The steps lead to the first goal on their way, no other way to a goal is shorter, and of those
that are as long each other one has later places. -/
structure Optimal (g : SearchGraph) (s : StateId) (es : List StepId) : Prop where
  /-- The steps lead to a goal. -/
  goal : ∃ t, g.Path s es t ∧ g.isGoal t = true
  /-- It is the first goal on their way. -/
  first : ∀ fs gs t, es = fs ++ gs → gs ≠ [] → g.Path s fs t → g.isGoal t = false
  /-- No way to a goal is shorter. -/
  shortest : ∀ fs t, g.Path s fs t → g.isGoal t = true → es.length ≤ fs.length
  /-- Ways that are as long have places that come later in the order of lists. -/
  least : ∀ fs t, g.Path s fs t → g.isGoal t = true → fs.length = es.length → fs ≠ es →
    g.places es<g.places fs

/-- Only one path is the best. -/
theorem Optimal.unique (h : g.Optimal s es) (h' : g.Optimal s fs) : es = fs := by
  obtain ⟨t,hp,ht⟩ := h.goal
  obtain ⟨u,hp',hu⟩ := h'.goal
  have hlen : es.length = fs.length :=
    Nat.le_antisymm (h.shortest fs u hp' hu) (h'.shortest es t hp ht)
  by_contra hne
  exact lt_asymm (h.least fs u hp' hu hlen.symm (Ne.symm hne)) (h'.least es t hp ht hlen hne)

/-- A step has an earlier place than another one of the state, if that one does not stand before. -/
theorem idxOf_lt {before after : List StepId} {f : StepId} (he : e ∉ before) (hf : f ∉ before)
    (hne : f ≠ e) :
    (before ++ e :: after).idxOf e<(before ++ e :: after).idxOf f := by
  rw [List.idxOf_append_of_notMem he,List.idxOf_append_of_notMem hf,List.idxOf_cons_self,
    List.idxOf_cons_ne _ hne.symm]
  omega

/-- The chosen path comes first among those that are as long. -/
theorem Chosen.least (h : g.Chosen s es) (hw : g.Wired) (hp : g.Path s fs t)
    (ht : g.isGoal t = true) (hlen : fs.length = es.length) (hne : fs ≠ es) :
    g.places es<g.places fs := by
  induction h generalizing fs with
  | goal => exact absurd (List.length_eq_zero_iff.mp hlen) hne
  | @step s e' x es before after away out found passed rest ih =>
    cases hp with
    | nil => cases hlen
    | @cons _ _ f fs y found' source rest' =>
      have hlen' : fs.length = es.length := Nat.succ.inj hlen
      have hf : f ∈ g.out s := source ▸ hw.mem_out found'
      -- The other path is as long, so its first step comes one step nearer, too.
      have hnear : g.Away es.length y.target := by
        obtain ⟨k,hk,hka⟩ := (rest'.goalIn hw.mem_out ht).away
        have hle := (away_succ.mp away).2.2 _ (mem_successors_of hf found') k hka
        rwa [show es.length = k by omega]
      have hplace : ∀ {e x}, e ∈ g.out s → g.step? e = some x →
          g.place e = (before ++ e' :: after).idxOf e := by
        intro e x he hx
        rw [place,hx,Option.elim_some,hw.source_of_out he hx,out]
      have he' : e' ∈ g.out s := out ▸ List.mem_append_right _ List.mem_cons_self
      rw [places,places,List.map_cons,List.map_cons,List.cons_lt_cons_iff]
      by_cases hfe : f = e'
      · subst hfe
        rw [found] at found'
        cases found'
        exact .inr ⟨rfl,ih rest' hlen' fun h => hne (congrArg _ h)⟩
      · rw [hplace he' found,hplace hf found']
        exact .inl (idxOf_lt (fun hm => passed _ hm _ found rest.away)
          (fun hm => passed _ hm _ found' hnear) hfe)

/-- The chosen path is the best one. -/
theorem Chosen.optimal (h : g.Chosen s es) (hw : g.Wired) : g.Optimal s es := by
  have hshortest : ∀ fs t, g.Path s fs t → g.isGoal t = true → es.length ≤ fs.length :=
    fun fs t hp ht => Nat.le_of_not_lt fun hlt =>
      h.away.least fs.length hlt (hp.goalIn hw.mem_out ht)
  refine ⟨h.walk.path fun he hx => hw.source_of_out he hx,fun fs gs t hes hgs hp => ?_,hshortest,
    fun fs t hp ht hlen hne => h.least hw hp ht hlen hne⟩
  rw [← Bool.not_eq_true]
  intro ht
  have hle := hshortest fs t hp ht
  have hpos := List.length_pos_iff.mpr hgs
  rw [hes,List.length_append] at hle
  omega

/-- If some path leads to a goal, a path is chosen. -/
theorem Wired.exists_chosen (hw : g.Wired) (hg : g.Straight) (hp : g.Path s es t)
    (ht : g.isGoal t = true) : ∃ fs, g.Chosen s fs :=
  (hp.goalIn hw.mem_out ht).exists_chosen hg

theorem Wired.straight (hw : g.Wired) (ha : g.Acyclic) : g.Straight :=
  ha.straight fun he hx => hw.source_of_out he hx

/-- In a graph without cycles the path that is found is the best one. -/
theorem Wired.shortestPath?_eq_some (hw : g.Wired) (ha : g.Acyclic) :
    g.shortestPath? s = some es ↔ g.Optimal s es := by
  have hg : g.Straight := hw.straight ha
  rw [SearchGraph.shortestPath?_eq_some hg]
  refine ⟨fun h => h.optimal hw,fun h => ?_⟩
  obtain ⟨t,hp,ht⟩ := h.goal
  obtain ⟨fs,hfs⟩ := hw.exists_chosen hg hp ht
  exact (hfs.optimal hw).unique h ▸ hfs

/-- In every graph without cycles that can be built, and from every state of it, no path is found
exactly if no goal can be reached; and the path that is found leads to the first goal on its way, is
the shortest one, and comes first among those that are as short. -/
theorem shortestPath?_optimal (hb : g.Built) (ha : g.Acyclic) (s : StateId) :
    (g.shortestPath? s = none ↔ ∀ es t, g.Path s es t → g.isGoal t = false) ∧
    ∀ es, g.shortestPath? s = some es ↔ g.Optimal s es := by
  have hw := hb.wired
  refine ⟨?_,fun es => hw.shortestPath?_eq_some ha⟩
  rw [Option.eq_none_iff_forall_ne_some]
  constructor
  · intro hnone es t hp
    rw [← Bool.not_eq_true]
    intro ht
    obtain ⟨fs,hfs⟩ := hw.exists_chosen (hw.straight ha) hp ht
    exact hnone fs ((hw.shortestPath?_eq_some ha).mpr (hfs.optimal hw))
  · intro hall es hes
    obtain ⟨t,hp,ht⟩ := ((hw.shortestPath?_eq_some ha).mp hes).goal
    rw [hall es t hp] at ht
    cases ht

/-- A graph has no cycle if every step leads to a state that was added later. -/
theorem acyclic_of_later (h : ∀ x ∈ g.steps, x.source.index<x.target.index) : g.Acyclic := by
  have hpath : ∀ {s t es}, g.Path s es t → s.index+es.length ≤ t.index := by
    intro s t es hp
    induction hp with
    | nil s => exact Nat.le_refl _
    | cons found source _ ih =>
      have hlt := h _ (Array.mem_of_getElem? found)
      rw [source] at hlt
      rw [List.length_cons]
      omega
  intro s es hp
  have hle := hpath hp
  exact List.length_eq_zero_iff.mp (by omega)

theorem Built.addSteps {xs : List SearchStep} (h : g.Built) (hx : ∀ x ∈ xs,
    x.source.index<g.states.size ∧ x.target.index<g.states.size) :
    (xs.foldl SearchGraph.addStep g).Built := by
  induction xs generalizing g with
  | nil => exact h
  | cons x xs ih =>
    obtain ⟨hs,ht⟩ := hx x List.mem_cons_self
    refine ih (h.addStep (live_iff.mpr hs) (live_iff.mpr ht)) fun y hy => ?_
    rw [size_addStep]
    exact hx y (List.mem_cons_of_mem x hy)

/-- A step between two states, whatever has been reduced. -/
def hop (s t : Nat) : SearchStep :=
  ⟨⟨s⟩,⟨t⟩,⟨0⟩,Rule.getVertex,⟨[],[],none⟩,⟨"",[]⟩⟩

/-- Two steps lead from the start to state 2, from which one leads to a goal. A step that was added
before them leads on a longer way, and one from that goal to another goal. -/
def meshed : SearchGraph :=
  let begun : Query := .bare "q" ""
  let done : Query := begun.edited
    [.addVertex .root ⟨.bare ["A"] (.vertex true []),@Item.Made.composite ["A"] _ rfl⟩]
  [hop 0 1,hop 0 2,hop 0 2,hop 1 3,hop 2 4,hop 3 4,hop 4 5,hop 1 6].foldl addStep
    ([begun,begun,begun,done,done,begun].foldl addState (.ofQuery begun))

/-- Of the two shortest ways the one is taken whose first step was added first. From the last state
no goal can be reached. -/
theorem shortestPath?_optimal_meshed : meshed.Built ∧ meshed.Acyclic ∧
    meshed.shortestPath? ⟨0⟩ = some [⟨1⟩,⟨4⟩] ∧ meshed.Optimal ⟨0⟩ [⟨1⟩,⟨4⟩] ∧
    meshed.places [⟨1⟩,⟨4⟩] = [1,0] ∧ meshed.places [⟨2⟩,⟨4⟩] = [2,0] ∧
    meshed.shortestPath? ⟨6⟩ = none ∧
    ∀ es t, meshed.Path ⟨6⟩ es t → meshed.isGoal t = false := by
  have hb : meshed.Built :=
    .addSteps (.addState (.addState (.addState (.addState (.addState (.addState (.ofQuery _)
      _) _) _) _) _) _) (by decide)
  have ha : meshed.Acyclic := acyclic_of_later (by decide)
  have hpath : meshed.shortestPath? ⟨0⟩ = some [⟨1⟩,⟨4⟩] := by decide +kernel
  have hnone : meshed.shortestPath? ⟨6⟩ = none := by decide +kernel
  exact ⟨hb,ha,hpath,((shortestPath?_optimal hb ha ⟨0⟩).2 _).mp hpath,by decide +kernel,
    by decide +kernel,hnone,(shortestPath?_optimal hb ha ⟨6⟩).1.mp hnone⟩

end SearchGraph

namespace Plan

variable {rules : List Rule} {config : SearchConfig} {depth : Nat} {q : Query} {plan : Plan}

/-- The path of a plan is the best one in its graph, whatever the rules and however deep the search
may go. -/
theorem path_optimal (h : toDepth rules config depth q = .ok plan) {es : List StepId}
    (hes : plan.path = some es) : plan.graph.Optimal .start es := by
  obtain ⟨o,p,hrun,rfl⟩ := exists_of_toDepth h
  have hs := Search.sound_of_expand hrun
  have hpath : p.graph.shortestPath? .start = some es := by
    cases o with
    | capped => cases hes
    | solved | exhausted => exact hes
  exact (hs.kept.faithful.wired.shortestPath?_eq_some hs.acyclic).mp hpath

end Plan

end GraphPattern
