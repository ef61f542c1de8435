import GraphPattern.Proofs.Execution.Stored

/-!
# What every step of a run finds

The steps of a plan that a search finds reduce one query after another, each to the very query from
which the next step starts. A run that fetches nothing replays all of them, and before every step
the matches in an entry are told apart by what they hold under the names of the vertex. A vertex
that owes an upper bound is left alone until that bound is enforced.
-/

namespace GraphPattern

open Matches Rule Step Workspace

namespace Query

variable {q₀ q q' : Query} {f : ItemId → ItemId} {s : Store} {rule : Rule} {a : Application}
  {out v : ItemId} {marker : Option Provenance} {X : Rows × Rows} {x : Item}

/-- The matches hold different things, all of them under names of the item. -/
def Sorted (q : Query) (v : ItemId) (X : Rows × Rows) : Prop :=
  ∃ F, Presents X F ∧ ∀ c ∈ F, c.Within {n | n ∈ q.itemNames v}

/-- The objects that match a plain vertex are told apart. -/
theorem Lineal.sorted_vertex (h : q₀.Lineal q f) (h₀ : q₀.Written) (hs : s.Keyed)
    (hx : q.item? v = some x) (hk : x.kind ≠ .composite) :
    q.Sorted v (ofObjects s x.condition x.joinedName,[]) := by
  refine ⟨_,presents_ofObjects hs x.condition x.joinedName,?_⟩
  rintro _ ⟨o,-,rfl⟩
  rw [h.itemNames_plain h₀ hx hk]
  exact Binding.within_of _ rfl

/-- The matches that are given for an absorbed vertex are told apart. -/
theorem Lineal.sorted_given (h : q₀.Lineal q f) (h₀ : q₀.Written) (hs : s.Keyed)
    (hx : q.item? v = some x) (hgiven : x.kind = .composite → q.Sorted v X)
    (hplain : x.kind ≠ .composite → X = (ofObjects s x.condition x.firstName,[])) :
    q.Sorted v X := by
  by_cases hk : x.kind = .composite
  · exact hgiven hk
  · obtain ⟨x₀,hx₀,hsame⟩ := h.plain hx hk
    have hname : x.firstName = x.joinedName := by
      rw [Item.firstName,hsame.joinedName,hsame.names,h₀.joinedName_eq hx₀]
      rfl
    rw [hplain hk,hname]
    exact h.sorted_vertex h₀ hs hx hk

/-- What a rule makes of matches that are told apart is told apart. -/
theorem Lineal.sorted_makes (h : q₀.Lineal q f) (h₀ : q₀.Written) (hs : s.Keyed)
    (hr : Reduction q rule a q' out) (hdecided : ∀ {c k}, k ∈ q.declared c → k.Decided)
    (hX : Makes q s q.Sorted a out rule marker X) : q'.Sorted out X := by
  have hc := hr.changes h.wellFormed
  have hnames : ∀ {i}, i ∈ a.items → {n | n ∈ q.itemNames i} ⊆ {n | n ∈ q'.itemNames out} :=
    fun hi n hn => hc.itemNames_out.mpr ⟨_,hi,hn⟩
  have hedge : ∀ {e y ends}, q.item? e = some y → y.ends? = some ends → e ∈ a.items →
      y.joinedName ∈ {n | n ∈ q'.itemNames out} := by
    intro e y ends hy he hi
    refine hnames hi ?_
    rw [h.itemNames_plain h₀ hy (by rw [Item.kind_edge_iff.mpr ⟨ends,he⟩]; decide)]
    rfl
  have hvertex : ∀ {i x}, q.item? i = some x → x.kind = .composite → q.IsVertex i :=
    fun hx hk => ⟨_,hx,Item.isVertex_of_kind (.inr hk)⟩
  cases hX with
  | @getVertex v x items settles live kind bounds =>
    obtain ⟨F,hF,hN⟩ := h.sorted_vertex h₀ hs live (by rw [kind]; decide)
    exact ⟨F,hF,fun c hc => (hN c hc).mono (hnames (by simp [items]))⟩
  | @absorbSelfLoop e x y ends X items settles live settled edge ended loop bounds given =>
    obtain ⟨F,hF,hN⟩ := given
    refine ⟨_,presents_absorbSelfLoop hF hN
      (h.joinedName_not_mem h₀ edge ended (hvertex live settled.kind)),?_⟩
    rintro _ ⟨b,hb,-,rfl⟩
    exact ((hN b hb).mono (hnames (by simp [items]))).sup
      (Binding.within_of _ (hedge edge ended (by simp [items])))
  | @collapseEdge e u x y z ends t X Z items settles live settled edge ended absorbed settled' near far
      ne together given given' =>
    obtain ⟨F,hF,hN⟩ := given
    obtain ⟨G,hG,hM⟩ := given'
    refine ⟨_,presents_collapseEdge hs hF hG hN hM (h.wellFormed.disjoint_itemNames ne)
      ⟨h.joinedName_not_mem h₀ edge ended (hvertex live settled.kind),
        h.joinedName_not_mem h₀ edge ended (hvertex absorbed settled'.kind)⟩,?_⟩
    rintro _ ⟨c,hc,d,hd,-,rfl⟩
    exact (((hN c hc).mono (hnames (by simp [items]))).sup
      ((hM d hd).mono (hnames (by simp [items])))).sup
        (Binding.within_of _ (hedge edge ended (by simp [items])))
  | @absorbAnnotatedVertex e u x y z ends b t marker X Z items settles live settled edge ended absorbed
      bounds absorbs owed given given' plain =>
    obtain ⟨F,hF,hN⟩ := given
    obtain ⟨G,hG,hM⟩ := h.sorted_given h₀ hs absorbed given' plain
    refine ⟨_,presents_absorbAnnotatedVertex hs hF hG hN hM
      (h.wellFormed.disjoint_itemNames absorbs.ne)
      (h.joinedName_not_mem h₀ edge ended (hvertex live settled.kind)),?_⟩
    rintro _ ⟨c,hc,-,rfl⟩
    exact ((hN c hc).mono (hnames (by simp [items]))).sup (Binding.within_gather fun d hd =>
      ((hM d hd.1).mono (hnames (by simp [items]))).sup
        (Binding.within_of _ (hedge edge ended (by simp [items]))))
  | @applyUpperLimit x m most X items settles live kind bounds marked limited given =>
    obtain ⟨F,hF,hN⟩ := given
    exact ⟨_,presents_applyUpperLimit hF m.item most,
      fun c hc => (hN c hc.1).mono (hnames (by simp [items]))⟩
  | eliminateSubquery items settles live settled given =>
    obtain ⟨F,hF,hN⟩ := given
    exact ⟨F,hF,fun c hc => (hN c hc).mono (hnames (by simp [items]))⟩
  | @processConstraint x k c operator X items settles live settled declared inside named binary given =>
    obtain ⟨F,hF,hN⟩ := given
    exact ⟨_,presents_processConstraint hF named binary (hdecided declared).item,
      fun c hc => (hN c hc.1).mono (hnames (by simp [items]))⟩

end Query

/-! ## Courses -/

/-- Steps that lead from one query to another one, when reductions have led from the first query to
it. Each of them starts from the query to which the one before it leads. -/
inductive Course (q₀ : Query) : Query → List PlanStep → Query → Prop
  /-- No step is taken. -/
  | nil {q : Query} {f : ItemId → ItemId} (lineal : q₀.Lineal q f) (able : q.Replayable) :
    Course q₀ q [] q
  /-- A step is taken first. -/
  | cons {q q' u : Query} {f : ItemId → ItemId} {x : SearchStep} {out : ItemId} {y : Item}
    {steps : List PlanStep} (lineal : q₀.Lineal q f) (able : q.Replayable)
    (reduced : Reduction q x.rule x.application q' out) (live : q'.item? out = some y)
    (named : x.result = ⟨y.joinedName,y.names⟩) (rest : Course q₀ q' steps u) :
    Course q₀ q (⟨q,x⟩ :: steps) u

namespace Course

open Query

variable {q₀ q u : Query} {steps : List PlanStep}

theorem able (h : Course q₀ q steps u) : q.Replayable := by
  cases h with
  | nil _ able => exact able
  | cons _ able _ _ _ _ => exact able

/-- A course is a tour. -/
theorem tour (h : Course q₀ q steps u) : Tour q₀ q steps u := by
  induction h with
  | nil lineal _ => exact .nil lineal
  | cons lineal able reduced live named rest ih =>
    exact .cons lineal able reduced live named (.refl fun k hk => rest.able.alike_of_declared hk) ih

end Course

/-- The steps that lead to a goal are a course. -/
theorem SearchGraph.Leads.course {g : SearchGraph} {rules : List Rule} {F : StateId → Prop}
    {q₀ : Query} {f : ItemId → ItemId} {s : StateId} {es : List StepId} (hl : g.Leads rules F s es)
    (hr : AllBuiltIn rules) (h₀ : q₀.Regular) {a : SearchState} (ha : g.state? s = some a)
    (hf : q₀.Lineal a.query f) (hable : a.query.Replayable) :
    ∃ u, u.isConsolidated = true ∧ Course q₀ a.query (es.filterMap g.planStep?) u := by
  induction hl generalizing a f with
  | @goal s hgoal =>
    rw [isGoal,ha,Option.any_some] at hgoal
    exact ⟨a.query,hgoal,.nil hf hable⟩
  | @step s e x a' b before after es aimless out found source idle here there carries later rest ih =>
    rw [ha] at here
    cases here
    obtain ⟨out,y,hred,hy,hnamed,hplannable⟩ := named_of_carries hr hable.plannable carries
    obtain ⟨u,hu,hcourse⟩ := ih there (hf.step h₀ hred) (hred.replayable hable hplannable)
    have hst : g.planStep? e = some ⟨a'.query,x⟩ := by
      rw [planStep?,found]
      simp only [Option.bind_eq_bind,Option.bind_some,source,ha,Option.pure_def]
    refine ⟨u,hu,?_⟩
    rw [List.filterMap_cons_some hst]
    exact .cons hf hable hred hy hnamed hcourse

namespace Execution

open Query

variable {q₀ q q' u : Query} {f : ItemId → ItemId} {x : SearchStep} {y z : Item} {out v : ItemId}
  {steps : List PlanStep} {config : ExecutionConfig} {finalName label : String} {s : Store}
  {w w' : Workspace} {total position i : Nat} {names : List String}
  {R S : ItemId → Rows × Rows → Prop} {X Y : Rows × Rows}

/-- A step that is replayed keeps what is known of the entries. -/
theorem entries_execute (hq : q.Reducible) (able : q.Replayable)
    (reduced : Reduction q x.rule x.application q' out) (live : q'.item? out = some y)
    (named : x.result = ⟨y.joinedName,y.names⟩) (hw : w.Orderly)
    (ho : w.store.objects = s.objects) (hl : w.store.links = s.links)
    (ht : q'.Tracked w'.registry.keys names)
    (hstep : runStep config label ⟨q,x⟩ .execute w = .ok () w') (hR : q.Entries w R)
    (hkeep : ∀ v z X, q.item? v = some z → v ∉ x.application.items → R v X → S v X)
    (hmake : ∀ X, Makes q s R x.application out x.rule y.provenance X → S out X) :
    q'.Entries w' S := by
  have hk := (reduced.changes hq.wellFormed).kind_out live
  exact (outcome_execute (P:=fun w' => q'.Entries w' S) (hR.step hq reduced live (by rw [named])
    (fun hz hkz hn => ht.apart hz live hkz hk hn) able.limited
    (fun hk => able.decided_of_declared ⟨_,hk⟩) hw.sound ho hl hkeep hmake) id).of_eq hstep

/-- What every step finds: the registry is in order, the data are those of the store, and the
matches in the entries are told apart. -/
structure Finds (q : Query) (s : Store) (w : Workspace) : Prop where
  /-- The registry is in order. -/
  orderly : w.Orderly
  /-- The objects are the same. -/
  objects : w.store.objects = s.objects
  /-- So are the links. -/
  links : w.store.links = s.links
  /-- The matches are told apart. -/
  sorted : q.Entries w q.Sorted

/-- A step that is replayed leaves what the next one finds. -/
theorem Finds.step (hw : Finds q s w) (hs : s.Keyed) (h₀ : q₀.Written) (lineal : q₀.Lineal q f)
    (able : q.Replayable) (reduced : Reduction q x.rule x.application q' out)
    (live : q'.item? out = some y) (named : x.result = ⟨y.joinedName,y.names⟩)
    (hreplays : PlanStep.Replays ⟨q,x⟩ w w') (ht : q'.Tracked w'.registry.keys names)
    (hstep : runStep config label ⟨q,x⟩ .execute w = .ok () w') : Finds q' s w' := by
  have hc := reduced.changes lineal.wellFormed
  refine ⟨hreplays.orderly,hreplays.data.objects.trans hw.objects,
    hreplays.data.links.trans hw.links,?_⟩
  refine entries_execute lineal.reducible able reduced live named hw.orderly hw.objects hw.links ht
    hstep hw.sorted (fun v z X hz hv hX => ?_) fun X hX => ?_
  · obtain ⟨F,hF,hN⟩ := hX
    refine ⟨F,hF,fun c hcF => ?_⟩
    rw [(hc.same hz hv).1]
    exact hN c hcF
  · exact lineal.sorted_makes h₀ hs reduced (fun hk => able.decided_of_declared ⟨_,hk⟩) hX

/-- Steps that are run one after another. -/
theorem runSteps_append (config : ExecutionConfig) (total position : Nat)
    (steps more : List (PlanStep × StepMode)) :
    runSteps config total position (steps ++ more) = (do
      runSteps config total position steps
      runSteps config total (position+steps.length) more) := by
  induction steps generalizing position with
  | nil =>
    funext w
    rfl
  | cons p steps ih =>
    funext w
    rw [List.cons_append,runSteps,runSteps,ih (position+1),List.length_cons]
    simp only [bind_assoc]
    rw [Nat.add_right_comm,Nat.add_assoc]

theorem runSteps_take {xs : List (PlanStep × StepMode)} {w₁ w₂ : Workspace} {k : Nat}
    (hi : i ≤ xs.length) (h₁ : runSteps config total position (xs.take i) w = .ok () w₁)
    (h₂ : runSteps config total (position+i) ((xs.drop i).take k) w₁ = .ok () w₂) :
    runSteps config total position (xs.take (i+k)) w = .ok () w₂ := by
  rw [List.take_add,runSteps_append,List.length_take_of_le hi,bind_of_ok h₁]
  exact h₂

/-- Every step of a run along a course is reached. -/
theorem reaches (h : Course q₀ q steps u) (hs : s.Keyed) (h₀ : q₀.Written) :
    ∀ {w w' : Workspace} {position i : Nat}, i ≤ steps.length → Finds q s w →
      runSteps config total position (scheduled .empty finalName steps) w = .ok () w' →
      u.Tracked w'.registry.keys [finalName] →
      ∃ p v, Course q₀ p (steps.drop i) u ∧ Finds p s v ∧
        (scheduled .empty finalName steps).drop i = scheduled .empty finalName (steps.drop i) ∧
        runSteps config total position ((scheduled .empty finalName steps).take i) w = .ok () v ∧
        runSteps config total (position+i) (scheduled .empty finalName (steps.drop i)) v =
          .ok () w' := by
  induction h with
  | @nil q f lineal able =>
    intro w w' position i hi hw hrun _
    obtain rfl := Nat.le_zero.mp hi
    exact ⟨q,w,.nil lineal able,hw,rfl,rfl,hrun⟩
  | @cons q q' u f x out y steps lineal able reduced live named rest ih =>
    intro w w' position i hi hw hrun hu
    cases i with
    | zero => exact ⟨q,w,.cons lineal able reduced live named rest,hw,rfl,rfl,hrun⟩
    | succ i =>
      obtain ⟨hscheduled,-,w₁,hstep,hrest,hreplays,htracked⟩ := executes_of_tracked lineal.wellFormed
        able reduced live named hw.orderly hrun fun hv hrest => tracked_of_tour rest.tour hv hrest hu
      obtain ⟨p,v,hp,hv,hdrop,hbefore,hafter⟩ := ih (Nat.le_of_succ_le_succ hi)
        (hw.step hs h₀ lineal able reduced live named hreplays htracked hstep) hrest hu
      rw [hscheduled,List.drop_succ_cons,List.take_succ_cons,List.drop_succ_cons]
      refine ⟨p,v,hp,hv,hdrop,?_,?_⟩
      · rw [runSteps,bind_of_ok hstep]
        exact hbefore
      · rwa [Nat.add_right_comm,Nat.add_assoc] at hafter

/-! ## Upper bounds that are owed -/

/-- A composite vertex that owes an upper bound takes part in nothing but its enforcement. -/
theorem limits_of_marked {rule : Rule} {a : Application} {m : Provenance}
    (hr : Reduction q rule a q' out) (hz : q.item? v = some z) (hk : z.kind = .composite)
    (hm : z.provenance = some m) (hv : v ∈ a.items) :
    rule = applyUpperLimit ∧ a.items = [v] ∧ out = v ∧
      q' = q.mapItem v fun z => { z with provenance := none } := by
  have hne : ∀ {i x}, q.item? i = some x → x.provenance = none → i ≠ v := by
    rintro i x hx hnone rfl
    rw [hz] at hx
    cases hx
    rw [hm] at hnone
    cases hnone
  cases hr with
  | getVertex live kind bounds listed owner unmarked =>
    cases List.mem_singleton.mp hv
    rw [hz] at live
    cases live
    rw [hk] at kind
    cases kind
  | absorbSelfLoop live settled edge ended loop owner bounds unmarked =>
    rcases List.mem_pair.mp hv with rfl|rfl
    · exact absurd rfl (hne live settled.provenance)
    · exact absurd rfl (hne edge unmarked)
  | collapseEdge able settled settled' unmarked together =>
    simp only [List.mem_cons,List.not_mem_nil,or_false] at hv
    rcases hv with rfl|rfl|rfl
    · exact absurd rfl (hne able.kept settled.provenance)
    · exact absurd rfl (hne able.edge unmarked)
    · exact absurd rfl (hne able.absorbed settled'.provenance)
  | absorbAnnotatedVertex able settled bounds annotated unmarked unmarked' together marking marked =>
    simp only [List.mem_cons,List.not_mem_nil,or_false] at hv
    rcases hv with rfl|rfl|rfl
    · exact absurd rfl (hne able.kept settled.provenance)
    · exact absurd rfl (hne able.edge unmarked)
    · exact absurd rfl (hne able.absorbed unmarked')
  | applyUpperLimit live kind bounds marked =>
    cases List.mem_singleton.mp hv
    exact ⟨rfl,rfl,rfl,rfl⟩
  | eliminateSubquery live settled owner inner parent alone =>
    cases List.mem_singleton.mp hv
    exact absurd rfl (hne live settled.provenance)
  | processConstraint live settled declared bounds inside owner first carried =>
    cases List.mem_singleton.mp hv
    exact absurd rfl (hne live settled.provenance)

/-- A composite vertex has an entry, and what is known of the entries holds of it. -/
theorem exists_entry (hR : q.Entries w R) (hw : w.Orderly) (ht : q.Tracked w.registry.keys names)
    (hz : q.item? v = some z) (hk : z.kind = .composite) :
    ∃ X : Rows × Rows, w.Entry z.joinedName X.1 X.2 ∧ R v X := by
  obtain ⟨-,O,L,-,hentry⟩ := hw.sound.exists_entry (ht.kept ⟨v,z,hz,hk,rfl⟩).1
  exact ⟨(O,L),hentry,hR v z (O,L) hz hk hentry⟩

/-- A step in which a composite vertex takes no part leaves the vertex and its entry alone. -/
theorem untouched_execute (hq : q.Reducible) (able : q.Replayable)
    (reduced : Reduction q x.rule x.application q' out) (live : q'.item? out = some y)
    (named : x.result = ⟨y.joinedName,y.names⟩) (hw : w.Orderly) (hw' : w'.Orderly)
    (ht : q'.Tracked w'.registry.keys names)
    (hstep : runStep config label ⟨q,x⟩ .execute w = .ok () w') (hz : q.item? v = some z)
    (hk : z.kind = .composite) (hX : w.Entry z.joinedName X.1 X.2)
    (hv : v ∉ x.application.items) :
    ∃ z', q'.item? v = some z' ∧ z'.kind = .composite ∧ z'.provenance = z.provenance ∧
      z'.joinedName = z.joinedName ∧ w'.Entry z'.joinedName X.1 X.2 := by
  obtain ⟨hne,z',hz',hf⟩ := (reduced.changes hq.wellFormed).forth hz hv
  have hk' := hf.kind.trans hk
  have hentries : q'.Entries w' fun i Z => i = v → Z = X :=
    entries_execute hq able reduced live named hw rfl rfl ht hstep (R:=fun i Z => i = v → Z = X)
      (fun i z'' Z hz'' _ hZ hi => by
        subst hi
        rw [hz] at hz''
        cases hz''
        obtain ⟨ho,hl⟩ := hZ.unique hX
        exact Prod.ext ho hl)
      (fun _ _ _ _ _ hZ => hZ) fun _ _ hi => absurd hi.symm hne
  obtain ⟨Z,hentry,hZ⟩ := exists_entry hentries hw' ht hz' hk'
  obtain rfl := hZ rfl
  refine ⟨z',hz',hk',hf.provenance,?_,hentry⟩
  rw [Item.joinedName,Item.joinedName,hf.names]

/-- The step that enforces the bound that a vertex owes drops the matches that exceed it. -/
theorem limited_execute {m : Provenance} {most : Nat} (hw : w.Orderly)
    (hrule : x.rule = applyUpperLimit) (hitems : x.application.items = [v])
    (hz : q.item? v = some z) (hm : z.provenance = some m) (hmost : m.max = some most)
    (hname : x.result.joinedName = z.joinedName) (hX : w.Entry z.joinedName X.1 X.2)
    (hstep : runStep config label ⟨q,x⟩ .execute w = .ok () w') :
    w'.Entry z.joinedName (ApplyUpperLimit.result m.item most X).1
      (ApplyUpperLimit.result m.item most X).2 := by
  have hreplay : Outcome (x.rule.replay ⟨q,x.application,x.result⟩) w (fun _ w' =>
      w'.Entry z.joinedName (ApplyUpperLimit.result m.item most X).1
        (ApplyUpperLimit.result m.item most X).2) True := by
    rw [hrule]
    refine (ApplyUpperLimit.outcome_replay (r:=⟨q,x.application,x.result⟩) hw.sound hitems hz hm
      hmost).imp (fun _ w' hw' => ?_) fun _ => trivial
    obtain ⟨-,Y,hY,hw'⟩ := hw'
    obtain ⟨ho,hl⟩ := hX.unique hY
    rw [(Prod.ext ho hl : X = Y),← hname]
    exact hw'.entry
  exact (outcome_execute (s:=⟨q,x⟩) hreplay id).of_eq hstep

/-- The bound that a composite vertex owes is enforced by a later step, and what its entry holds is
left alone until then. -/
theorem enforces_of_marked (h : Course q₀ q steps u) (hconsolidated : u.isConsolidated = true)
    {m : Provenance} {most : Nat} (hmost : m.max = some most) :
    ∀ {w w' : Workspace} {position : Nat} {z : Item}, q.item? v = some z → z.kind = .composite →
      z.provenance = some m → w.Orderly → w.Entry z.joinedName X.1 X.2 →
      runSteps config total position (scheduled .empty finalName steps) w = .ok () w' →
      u.Tracked w'.registry.keys [finalName] →
      ∃ k st, steps[k]? = some st ∧ st.step.rule = applyUpperLimit ∧
        st.step.application.items = [v] ∧
        (∀ j st', j < k → steps[j]? = some st' → v ∉ st'.step.application.items) ∧
        ∃ w₁, runSteps config total position ((scheduled .empty finalName steps).take (k+1)) w =
            .ok () w₁ ∧
          w₁.Entry z.joinedName (ApplyUpperLimit.result m.item most X).1
            (ApplyUpperLimit.result m.item most X).2 := by
  induction h with
  | nil lineal able =>
    -- The one vertex of a consolidated query owes nothing.
    intro w w' position z hz hk hm _ _ _ _
    obtain ⟨i,x,hx,hset,honly,-⟩ := eq_of_consolidated lineal.wellFormed hconsolidated
    obtain rfl := honly _ z hz
    rw [hx] at hz
    cases hz
    rw [hset.provenance] at hm
    cases hm
  | @cons q q' u f x out y steps lineal able reduced live named rest ih =>
    intro w w' position z hz hk hm hw hX hrun hu
    obtain ⟨hscheduled,-,w₁,hstep,hrest,hreplays,htracked⟩ := executes_of_tracked lineal.wellFormed
      able reduced live named hw hrun fun hv hrest => tracked_of_tour rest.tour hv hrest hu
    by_cases hv : v ∈ x.application.items
    · obtain ⟨hrule,hitems,rfl,hq'⟩ := limits_of_marked reduced hz hk hm hv
      have hname : x.result.joinedName = z.joinedName := by
        rw [hq',item?_mapItem,if_pos rfl,hz] at live
        rw [named,← Option.some_inj.mp live]
        rfl
      refine ⟨0,_,rfl,hrule,hitems,fun j _ hj => absurd hj (Nat.not_lt_zero j),w₁,?_,
        limited_execute hw hrule hitems hz hm hmost hname hX hstep⟩
      rw [hscheduled,List.take_succ_cons,List.take_zero,runSteps,bind_of_ok hstep]
      rfl
    · obtain ⟨z',hz',hk',hm',hname,hX'⟩ := untouched_execute lineal.reducible able reduced live named
        hw hreplays.orderly htracked hstep hz hk hX hv
      obtain ⟨k,st,hst,hrule,hitems,hidle,w₂,hrun₂,hY⟩ := ih hconsolidated hz' hk' (hm'.trans hm)
        hreplays.orderly hX' hrest hu
      refine ⟨k+1,st,hst,hrule,hitems,fun j st' hj hst' => ?_,w₂,?_,hname ▸ hY⟩
      · cases j with
        | zero =>
          cases hst'
          exact hv
        | succ j => exact hidle j st' (Nat.lt_of_succ_lt_succ hj) hst'
      · rw [hscheduled,List.take_succ_cons,runSteps,bind_of_ok hstep]
        exact hrun₂

end Execution

end GraphPattern
