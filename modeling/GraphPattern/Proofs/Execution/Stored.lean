import GraphPattern.Proofs.Description.Noted
import GraphPattern.Proofs.Execution.Answer
import GraphPattern.Proofs.Execution.Tour
import GraphPattern.Proofs.Matches.Assignment

/-!
# What a run stores

A path in the graph of a search is a tour, if the states that its steps lead to agree with what the
steps reduce to. A run along a tour to a consolidated query stores what fits all items and all
constraints of the first query, whichever tour it is.
-/

namespace GraphPattern

open Matches Rule Step Workspace

namespace Query

variable {q₀ q u : Query} {f : ItemId → ItemId} {s : Store} {D : Set Constraint} {w : Workspace}
  {N : Set String} {owed : Option String} {name : String}

/-- A constraint about items of an annotated subquery alone is declared there. -/
def Housed (q : Query) : Prop := ∀ {c d k}, q.subqueryBounds c ≠ none → k ∈ q.declared d →
  (∀ n ∈ k.itemNames, n ∈ (Limb.subquery c).names q) → d = c

/-- There is one answer to a query that is built, that validation accepts and that can be solved, if
its constraints are declared where they have to be. -/
theorem Solvable.definite {d : Description} (hq : d.build = .ok q) (hv : q.violations = [])
    (hs : q.Solvable) (hhoused : q.Housed) : q.Definite := by
  obtain ⟨hw,hitem⟩ := Description.itemed_build hq
  have hreg := regular_of_violations hw.wellFormed hv
  have hcomparable : q.Comparable := fun c C k hC hk =>
    ⟨hs.sameRelation_self hw.wellFormed (mem_declared.mpr ⟨C,hC,hk⟩),hitem c C k hC hk⟩
  exact ⟨hw,hreg,hs.orderly hw.wellFormed hreg.flat,hs.settling hw.wellFormed,
    hw.replayable hcomparable hv,
    fun ⟨_,hk⟩ ⟨_,hl⟩ hkl => (Description.noted_build hq).onEdges hk hl hkl,hhoused⟩

/-- When no constraint is left, all have been processed. -/
theorem Accounts.fitting_eq (h₀ : q₀.Definite) (hD : q₀.Accounts u D) (hu : ∀ c, u.declared c = []) :
    q₀.fitting s D owed N = q₀.fitting s q₀.allDeclared owed N := by
  ext b
  constructor
  · intro hb
    refine Fits.settle hb fun l hl _ _ => ?_
    rcases hD.settled l hl with ⟨k,⟨c,hk⟩,-⟩|⟨k,hk,hkl⟩
    · rw [hu] at hk
      cases hk
    · exact ⟨k,hk,hkl,h₀.any_isBinary (hD.declared k hk)⟩
  · intro hb
    refine Fits.settle hb fun l hl _ _ => ?_
    have hl := hD.declared l hl
    exact ⟨l,hl,h₀.alike_self hl,h₀.any_isBinary hl⟩

/-- The entry of the vertex of a consolidated query presents what fits all of the first query. -/
theorem Presented.answers (h₀ : q₀.Definite) (h : q₀.Lineal u f) (hD : q₀.Accounts u D)
    (hu : u.isConsolidated = true) (hP : q₀.Presented u s D w) (hn : u.Composite name)
    {O L : Rows} (hX : w.Entry name O L) : Presents (O,L) (q₀.answers s) := by
  obtain ⟨v,x,hx,hset,honly,-,hnone⟩ := eq_of_consolidated h.wellFormed hu
  obtain ⟨i,z,hz,hk,rfl⟩ := hn
  obtain rfl := honly i z hz
  rw [hx] at hz
  cases hz
  have hpresents := hP.entry (X:=(O,L)) hx hk hX
  have hnames : {n | n ∈ u.itemNames i} = q₀.allNames := by
    ext n
    constructor
    · intro hn
      obtain ⟨j,-,hj⟩ := h.names.mp hn
      exact ⟨j,hj⟩
    · rintro ⟨j,hj⟩
      have hplace := h.names.mpr ⟨j,rfl,hj⟩
      obtain ⟨y,hy,-⟩ := mem_itemNames.mp hplace
      exact honly _ y hy ▸ hplace
  rwa [hset.provenance,hnames,hD.fitting_eq h₀ hnone] at hpresents

/-- In a consolidated query the only vertex is tracked by its name. -/
theorem tracked_of_consolidated (hw : u.WellFormed) (hu : u.isConsolidated = true)
    (hn : u.Composite name) : u.Tracked [name] [name] := by
  obtain ⟨v,x,hx,-,honly,-⟩ := eq_of_consolidated hw hu
  obtain ⟨i,z,hz,-,rfl⟩ := hn
  constructor
  · intro j k y y' hy hy' _ _ _
    rw [honly j y hy,honly k y' hy']
  · rintro n ⟨j,y,hy,-,rfl⟩
    obtain rfl := honly j y hy
    obtain rfl := honly i z hz
    rw [hy] at hz
    cases hz
    exact ⟨List.mem_singleton_self _,List.mem_singleton_self _⟩

/-- In a query without composite vertices nothing is presented. -/
theorem Written.holds (h₀ : q₀.Definite) (hw : w.Orderly) (ho : w.store.objects = s.objects)
    (hl : w.store.links = s.links) : Execution.Holds q₀ q₀ s w := by
  refine ⟨hw,ho,hl,∅,⟨fun k hk => hk.elim,fun k hk => hk.elim,fun k hk => ?_⟩,⟨fun hx hk _ => ?_⟩⟩
  · exact .inl ⟨k,hk,h₀.alike_self hk⟩
  · exact absurd hk (h₀.written.item hx).plain

end Query

namespace SearchGraph

open Query

variable {g : SearchGraph} {rules : List Rule} {q₀ : Query} {s t : StateId} {es : List StepId}

/-- Reductions lead to every state of a search. -/
theorem Faithful.lineal (h : g.Faithful rules q₀) (hr : AllBuiltIn rules) (h₀ : q₀.Definite)
    {st : SearchState} (hs : g.state? s = some st) : ∃ f, q₀.Lineal st.query f := by
  refine h.preserved (P:=fun q => ∃ f, q₀.Lineal q f)
    ⟨id,.refl h₀.written h₀.regular.flat h₀.settling⟩ ?_ hs
  rintro x q q' ⟨f,hf⟩ hx
  obtain ⟨out,hred,-⟩ := reducible_of_carries hr hf.reducible hx
  exact ⟨_,hf.step h₀.regular hred⟩

/-- The state that a step leads to agrees with what the step reduces to. -/
def Agreeing (g : SearchGraph) (rules : List Rule) (e : StepId) : Prop :=
  ∀ x a b q', g.step? e = some x → g.state? x.source = some a → g.state? x.target = some b →
    x.Carries rules a.query q' → q'.content = b.query.content → q'.Agrees b.query

/-- A step comes before a tour from the state that it leads to, if that state agrees with what the
step reduces to. -/
theorem Faithful.advance (h : g.Faithful rules q₀) (hr : AllBuiltIn rules) (h₀ : q₀.Definite)
    {e : StepId} {x : SearchStep} {a : SearchState} {q' p u : Query} {steps : List PlanStep}
    (found : g.step? e = some x) (ha : g.state? x.source = some a) (hx : x.Carries rules a.query q')
    (hagrees : q'.Agrees p) (htour : Tour q₀ p steps u) :
    ∃ st, g.planStep? e = some st ∧ Tour q₀ a.query (st :: steps) u := by
  obtain ⟨f,hf⟩ := h.lineal hr h₀ ha
  have hable := h.replayable hr h₀.replayable ha
  obtain ⟨out,y,hred,hy,hnamed,-⟩ := named_of_carries hr hable.plannable hx
  refine ⟨⟨a.query,x⟩,?_,.cons hf hable hred hy hnamed hagrees htour⟩
  rw [planStep?,found]
  simp only [Option.bind_eq_bind,Option.bind_some,ha,Option.pure_def]

/-- A path in the graph of a search is a tour, if the states that its steps lead to agree with what
the steps reduce to. -/
theorem Faithful.tour (h : g.Faithful rules q₀) (hr : AllBuiltIn rules) (h₀ : q₀.Definite)
    (hp : g.Path s es t) (hes : ∀ e ∈ es, g.Agreeing rules e) {a : SearchState}
    (ha : g.state? s = some a) :
    ∃ b, g.state? t = some b ∧ Tour q₀ a.query (es.filterMap g.planStep?) b.query := by
  induction hp generalizing a with
  | nil s =>
    obtain ⟨f,hf⟩ := h.lineal hr h₀ ha
    exact ⟨a,ha,.nil hf⟩
  | @cons s t e es x found source rest ih =>
    obtain ⟨a',c,q',ha',hc,hx,hkept⟩ := h.step found
    obtain ⟨b,hb,htour⟩ := ih (fun e he => hes e (List.mem_cons_of_mem _ he)) hc
    have hagrees := hes e List.mem_cons_self x a' c q' found ha' hc hx hkept
    obtain ⟨st,hst,htour⟩ := h.advance hr h₀ found ha' hx hagrees htour
    rw [source,ha] at ha'
    cases ha'
    refine ⟨b,hb,?_⟩
    rw [List.filterMap_cons_some hst]
    exact htour

/-- The steps that lead to a goal are a tour. -/
theorem Leads.tour {F : StateId → Prop} (hl : g.Leads rules F s es) (h : g.Faithful rules q₀)
    (hr : AllBuiltIn rules) (h₀ : q₀.Definite) {a : SearchState} (ha : g.state? s = some a) :
    ∃ u, u.isConsolidated = true ∧ Tour q₀ a.query (es.filterMap g.planStep?) u := by
  induction hl generalizing a with
  | @goal s hgoal =>
    rw [isGoal,ha,Option.any_some] at hgoal
    obtain ⟨f,hf⟩ := h.lineal hr h₀ ha
    exact ⟨a.query,hgoal,.nil hf⟩
  | @step s e x a' b before after es aimless out found source idle here there carries later rest ih =>
    obtain ⟨u,hu,htour⟩ := ih there
    rw [← source] at here
    have hable := h.replayable hr h₀.replayable there
    obtain ⟨st,hst,htour⟩ := h.advance hr h₀ found here carries
      (.refl fun k hk => hable.alike_of_declared hk) htour
    rw [source,ha] at here
    cases here
    refine ⟨u,hu,?_⟩
    rw [List.filterMap_cons_some hst]
    exact htour

end SearchGraph

namespace Tour

open Query

variable {q₀ q u : Query} {steps : List PlanStep} {last : PlanStep}

/-- The last step of a tour leads to a composite vertex that is there in the end. -/
theorem composite (h : Tour q₀ q steps u) (hlast : steps.getLast? = some last) :
    u.Composite last.step.result.joinedName := by
  induction h with
  | nil => cases hlast
  | @cons q q' t u f x out y steps lineal able reduced live named kept rest ih =>
    cases steps with
    | nil =>
      cases hlast
      cases rest
      have hk := (reduced.changes lineal.wellFormed).kind_out live
      obtain ⟨j,z,hz,hkz,hnz,-⟩ := kept.forth live hk
      exact ⟨j,z,hz,hkz,(congrArg (".".intercalate) hnz).trans
        (congrArg ResultVertex.joinedName named).symm⟩
    | cons s steps => exact ih (by rw [← hlast,List.getLast?_cons_cons])

/-- Reductions lead to the last query of a tour. -/
theorem lineal (h : Tour q₀ q steps u) : ∃ f, q₀.Lineal u f := by
  induction h with
  | nil lineal => exact ⟨_,lineal⟩
  | cons _ _ _ _ _ _ _ ih => exact ih

end Tour

namespace Execution

open Query

variable {q₀ q u : Query} {steps : List PlanStep} {config : ExecutionConfig} {s : Store}
  {last : PlanStep} {destination finalName : String} {w : Workspace} {report : ExecutionReport}

/-- The steps of a run along a tour keep the registry in order and the data as they are. -/
theorem same_of_tour {total : Nat} (h : Tour q₀ q steps u) :
    ∀ {w w' : Workspace} {position : Nat}, w.Orderly →
      runSteps config total position (scheduled .empty finalName steps) w = .ok () w' →
      w'.Orderly ∧ w.store.SameData w'.store := by
  induction h with
  | nil lineal =>
    intro w w' position hw hrun
    cases hrun
    exact ⟨hw,.refl _⟩
  | @cons q q' t u f x out y steps lineal able reduced live named kept rest ih =>
    intro w w' position hw hrun
    obtain ⟨mode,names,hm,hscheduled,-⟩ := exists_scheduled .empty finalName ⟨q,x⟩ steps
    rw [hscheduled] at hrun
    obtain ⟨⟨⟩,w₁,hstep,hrest⟩ := bind_eq_ok.mp hrun
    cases hm with
    | skip unneeded =>
      cases hstep
      exact ih hw hrest
    | fetch wanted found =>
      rw [commonSource?_empty] at found
      cases found
    | execute wanted missing =>
      have hreplays := replays_execute ⟨able,q',out,y,reduced,live,named⟩ hw hstep
      obtain ⟨hw',hsame⟩ := ih hreplays.orderly hrest
      exact ⟨hw',hreplays.data.trans hsame⟩

/-- Without cached items nothing is fetched. -/
theorem fetched_uncached (finalName : String) (steps : List PlanStep) :
    fetched (scheduled .empty finalName steps) = [] := by
  refine List.filterMap_eq_nil_iff.mpr fun p hp => ?_
  obtain ⟨x,mode⟩ := p
  cases mode with
  | skip | execute => rfl
  | fetch container =>
    have hfound := find?_of_fetch hp rfl
    rw [commonSource?_empty] at hfound
    cases hfound

/-- Rows of matches have no cells that would be left out of a container. -/
theorem laid_of_proper {X : Rows × Rows} (h : Proper X) (kind : SourceKind) :
    laid (rowsOf X kind) = rowsOf X kind := by
  refine (List.map_congr_left fun row hrow => ?_).trans (List.map_id _)
  obtain ⟨r,rfl,-⟩ := h.shaped hrow
  rfl

/-- Where a tour leads to a consolidated query, its steps leave the entry that is stored and no other,
and the vertex of that query is tracked by its name. -/
theorem tracked_of_cleared (h : Tour q₀ q₀ steps u) (hu : u.isConsolidated = true)
    (hcached : q₀.cachedItems .whole = .empty) (hlast : steps.getLast? = some last) {s' : Store}
    (hd : destination ∉ s'.containers.keys)
    (hrun : (do
      runSteps config steps.length 1 (planned q₀ last.step.result.joinedName steps)
      conclude q₀ (planned q₀ last.step.result.joinedName steps) last.step.result.joinedName
        destination : WorkStep ExecutionReport) (.fresh s') = .ok report w) :
    ∃ w₁, runSteps config steps.length 1 (scheduled .empty last.step.result.joinedName steps)
        (.fresh s') = .ok () w₁ ∧
      u.Tracked w₁.registry.keys [last.step.result.joinedName] ∧
      ∃ O L : Rows, w₁.Entry last.step.result.joinedName O L ∧
        w.store.containers.find? destination = some (contained O L) := by
  rw [planned_uncached hcached] at hrun
  obtain ⟨⟨⟩,w₁,hsteps,hrun⟩ := bind_eq_ok.mp hrun
  obtain ⟨hw₁,hsame⟩ := same_of_tour h (orderly_fresh s') hsteps
  obtain ⟨hkeys,O,L,hentry,hfound⟩ := (ends_conclude hw₁ (by rw [hsame.containers]; exact hd) q₀
    (scheduled .empty last.step.result.joinedName steps)).of_eq hrun
  have hkeys : w₁.registry.keys = [last.step.result.joinedName] := by
    rw [← hkeys,fetched_uncached]
    exact (List.filter_eq_self.mpr fun _ _ => by simp).symm
  obtain ⟨f,hf⟩ := h.lineal
  refine ⟨w₁,hsteps,?_,O,L,hentry,hfound⟩
  rw [hkeys]
  exact tracked_of_consolidated hf.wellFormed hu (h.composite hlast)

/-- Where a tour leads to a consolidated query, its steps and what comes after them store what fits all
items and all constraints of the first query, if there is room for the container. -/
theorem presents_of_cleared (h₀ : q₀.Definite) (hs : s.Keyed) (h : Tour q₀ q₀ steps u)
    (hu : u.isConsolidated = true) (hcached : q₀.cachedItems .whole = .empty)
    (hlast : steps.getLast? = some last) {s' : Store} (ho : s'.objects = s.objects)
    (hl : s'.links = s.links) (hd : destination ∉ s'.containers.keys)
    (hrun : (do
      runSteps config steps.length 1 (planned q₀ last.step.result.joinedName steps)
      conclude q₀ (planned q₀ last.step.result.joinedName steps) last.step.result.joinedName
        destination : WorkStep ExecutionReport) (.fresh s') = .ok report w) :
    ∃ O L : Rows, w.store.containers.find? destination =
      some ⟨⟨Column.matched,O⟩,⟨Column.matched,L⟩⟩ ∧ Presents (O,L) (q₀.answers s) := by
  obtain ⟨w₁,hsteps,htracked,O,L,hentry,hfound⟩ := tracked_of_cleared h hu hcached hlast hd hrun
  obtain ⟨f,hf⟩ := h.lineal
  obtain ⟨-,-,-,D,hD,hP⟩ := holds_of_tour h₀ hs h (Written.holds h₀ (orderly_fresh s') ho hl) hsteps
    htracked
  have hpresents := hP.answers h₀ hf hD hu (h.composite hlast) hentry
  refine ⟨O,L,?_,hpresents⟩
  have hO : laid O = O := laid_of_proper hpresents.toProper .object
  have hL : laid L = L := laid_of_proper hpresents.toProper .link
  rw [hfound,contained,hO,hL]

/-- A run along a tour to a consolidated query stores what fits all items and all constraints of the
first query. -/
theorem presents_of_tour (h₀ : q₀.Definite) (hs : s.Keyed) (h : Tour q₀ q₀ steps u)
    (hu : u.isConsolidated = true) (hcached : q₀.cachedItems .whole = .empty)
    (hlast : steps.getLast? = some last) (hd : destination ∉ s.containers.keys)
    (hrun : runPlan config q₀ steps last.step.result.joinedName destination (.fresh s) =
      .ok report w) : ∃ O L : Rows, w.store.containers.find? destination =
        some ⟨⟨Column.matched,O⟩,⟨Column.matched,L⟩⟩ ∧ Presents (O,L) (q₀.answers s) := by
  rw [runPlan_eq,bind_of_ok (clearDestination_free config hd)] at hrun
  exact presents_of_cleared h₀ hs h hu hcached hlast rfl rfl hd hrun

end Execution

end GraphPattern
