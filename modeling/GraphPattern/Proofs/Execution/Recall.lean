import GraphPattern.Proofs.Execution.Answer
import GraphPattern.Proofs.Execution.Effect
import GraphPattern.Proofs.Execution.Modes

/-!
# Fetching instead of replaying

Two runs of the same steps, one of which fetches some results, go side by side. Before every step
the results that the second run still needs are alike in both: a step that both replay keeps that,
since it makes alike matches of alike ones, and a step that one of them fetches does if what is
fetched is what the other run makes. In the end the last result is alike.
-/

namespace GraphPattern

open Step Workspace Matches

namespace Workspace

variable {w w' v v' : Workspace} {n name : String} {O L : Rows}

/-- What two registries hold under a name is alike, if both hold something. -/
def AlikeAt (n : String) (w v : Workspace) : Prop :=
  ∀ {X Y : Rows × Rows}, w.Entry n X.1 X.2 → v.Entry n Y.1 Y.2 → Alike X Y

/-- A part of a run has written at most one entry, and may have taken others. -/
structure Writes (name : String) (w w' : Workspace) : Prop where
  /-- The registry is in order. -/
  orderly : w'.Orderly
  /-- The data are the same. -/
  data : w.store.SameData w'.store
  /-- The other entries are from before. -/
  others : ∀ {n O L}, n ≠ name → w'.Entry n O L → w.Entry n O L

theorem Writes.wrote {taken : List String} (hw : w.Orderly) (h : Wrote w taken name O L w')
    (hO : Numbered O) : w.Writes name w' :=
  ⟨hw.wrote h hO,h.data,fun hn he => ((h.others hn).mp he).2⟩

end Workspace

/-- Objects that are alike have numbers if one of them do. -/
theorem Alike.numbered {X Y : Rows × Rows} (h : Alike X Y) (hX : Numbered X.1) : Numbered Y.1 := by
  obtain ⟨σ,ho,-⟩ := h
  intro row hr
  obtain ⟨r,hm,rfl⟩ := ho.mem.mp hr
  obtain ⟨i,hi⟩ := hX r hm
  exact ⟨i,by rw [Renumbering.cell_act,hi]; rfl⟩

namespace Execution

variable {config : ExecutionConfig} {label finalName : String} {s : PlanStep} {w w' v v' : Workspace}
  {data : Store} {sources : List Item} {f : List (Rows × Rows) → Rows × Rows}

/-- Changes that are made durable after a step leave the registry as it is. -/
theorem outcome_execute {P : Workspace → Prop}
    (h : Outcome (s.step.rule.replay s.replay) w (fun _ w' => P w') True)
    (hc : ∀ {w : Workspace} {n}, P w → P { w with store := { w.store with commits := n } }) :
    Outcome (runStep config label s .execute) w (fun _ w' => P w') True := by
  refine outcome_labelled (h.bind fun _ w₁ h₁ => ?_)
  cases config.commitEachStep with
  | false => exact .of_ok rfl h₁
  | true =>
    cases hf : w₁.store.failsCommits with
    | false =>
      refine .of_ok (a:=⟨⟩) ?_ (hc (n:=w₁.store.commits+1) h₁)
      simp only [if_true]
      rw [lift_apply,Store.commit_ok hf]
    | true =>
      refine .of_error (e:=.store .commitFailed) (t:=w₁) ?_ trivial
      have hfail : Store.commit w₁.store = .error .commitFailed w₁.store := by
        simp only [Store.commit,bind_apply,get_apply,hf,if_true,throw_apply]
      simp only [if_true]
      rw [lift_apply,hfail]

/-- A step that writes nothing leaves what it finds. -/
theorem outcome_idle (hw : w.Orderly)
    (h : ∀ w : Workspace, Outcome (s.step.rule.replay s.replay) w (fun _ w' => w' = w) True) :
    Outcome (runStep config label s .execute) w (fun _ w' => w'.Orderly ∧
      w.store.SameData w'.store ∧ ∀ {n O L}, w'.Entry n O L ↔ w.Entry n O L) True := by
  refine outcome_execute ((h w).imp (fun _ w' hw' => ?_) id) fun {w'} n ⟨ho,hd,he⟩ => ?_
  · rw [hw']
    exact ⟨hw,.refl _,Iff.rfl⟩
  · exact ⟨ho.commits n,⟨hd.objects,hd.links,hd.containers,hd.failsCommits⟩,he⟩

theorem numbered_supplied (hw : w.Orderly) {Xs : List (Rows × Rows)}
    (h : List.Forall₂ w.Supplies sources Xs) : List.Forall₂ (fun _ X => Numbered X.1) sources Xs := by
  induction h with
  | nil => exact .nil
  | cons hX _ ih => exact .cons (hw.supplied hX) ih

/-- A step that is replayed writes what its effect makes of the matches of its items. -/
theorem outcome_effect (hw : w.Orderly) (he : s.Effect data sources f)
    (ho : w.store.objects = data.objects) (hl : w.store.links = data.links) :
    Outcome (runStep config label s .execute) w (fun _ w' =>
      w.Writes s.step.result.joinedName w' ∧ ∃ Xs, List.Forall₂ w.Supplies sources Xs ∧
        w'.Entry s.step.result.joinedName (f Xs).1 (f Xs).2) True := by
  refine outcome_execute ((he.replays hw.sound ho hl).imp (fun _ w' hw' => ?_) id)
    fun {w'} n ⟨hp,Xs,hXs,hentry⟩ => ?_
  · obtain ⟨Xs,taken,hXs,hw'⟩ := hw'
    exact ⟨.wrote hw hw' (he.numbered (numbered_supplied hw hXs)),Xs,hXs,hw'.entry⟩
  · exact ⟨⟨hp.orderly.commits n,⟨hp.data.objects,hp.data.links,hp.data.containers,
      hp.data.failsCommits⟩,hp.others⟩,Xs,hXs,hentry⟩

/-- The matches of items that are alike where they have entries are alike. -/
theorem alike_supplied (hstore : w.store.objects = v.store.objects)
    (hat : ∀ x ∈ sources, x.isComposite = true → AlikeAt x.joinedName w v)
    {Xs Ys : List (Rows × Rows)} (hXs : List.Forall₂ w.Supplies sources Xs)
    (hYs : List.Forall₂ v.Supplies sources Ys) : List.Forall₂ Alike Xs Ys := by
  induction hXs generalizing Ys with
  | nil =>
    cases hYs
    exact .nil
  | @cons x X sources Xs hX _ ih =>
    cases hYs with
    | @cons _ Y _ Ys hY hYs =>
      refine .cons ?_ (ih (fun z hz => hat z (List.mem_cons_of_mem _ hz)) hYs)
      rw [Supplies] at hX hY
      by_cases hc : x.isComposite = true
      · rw [if_pos hc] at hX hY
        exact hat x List.mem_cons_self hc hX hY
      · rw [if_neg hc] at hX hY
        rw [hX,hY,ofObjects_congr hstore]
        exact .refl _

/-! ## Side by side -/

/-- Two runs on the same data, in which the results of some names are alike. -/
structure Beside (s₀ s₁ : Store) (names : List String) (w v : Workspace) : Prop where
  /-- The registry of the first run is in order. -/
  left : w.Orderly
  /-- So is that of the second one. -/
  right : v.Orderly
  /-- The first run works on its data. -/
  leftData : s₀.SameData w.store
  /-- The second one works on its own. -/
  rightData : s₁.SameData v.store
  /-- The objects are the same. -/
  objects : s₁.objects = s₀.objects
  /-- So are the links. -/
  links : s₁.links = s₀.links
  /-- These results are alike. -/
  alike : ∀ n ∈ names, AlikeAt n w v

/-- What a container offers for a step is alike to what a workspace holds. -/
def Offers (s₁ : Store) (s : PlanStep) (source : String) (w : Workspace) : Prop :=
  ∃ X : Rows × Rows, w.Entry s.step.result.joinedName X.1 X.2 ∧
    ∀ c, s₁.containers.find? source = some c → c.objects.columns = Column.matched ∧
      c.links.columns = Column.matched ∧
      Alike X (ofItems s.step.result.names c.objects.rows,ofItems s.step.result.names c.links.rows)

variable {s₀ s₁ : Store} {names : List String} {cached : OrderedMap String String}
  {steps : List PlanStep} {config₀ config₁ : ExecutionConfig}

/-- A step that is replayed writes its result at most. -/
theorem writes_execute (hs : s.Enacted) (hw : w.Orderly) (hd : s₀.SameData w.store)
    (h : runStep config label s .execute w = .ok () w') :
    w.Writes s.step.result.joinedName w' := by
  rcases s.exists_effect hs s₀ with ⟨-,hidle⟩|⟨sources,f,he⟩
  · obtain ⟨ho,hdata,hentries⟩ := (outcome_idle hw hidle).of_eq h
    exact ⟨ho,hdata,fun _ he => hentries.mp he⟩
  · exact ((outcome_effect hw he hd.objects hd.links).of_eq h).1

/-- A step that both runs replay makes alike results. -/
theorem alikeAt_execute (hs : s.Enacted) (hb : Beside s₀ s₁ names w v)
    (hn : ∀ n ∈ s.step.application.names, n ∈ names)
    (h₀ : runStep config₀ label s .execute w = .ok () w')
    {label' : String} (h₁ : runStep config₁ label' s .execute v = .ok () v') :
    AlikeAt s.step.result.joinedName w' v' := by
  intro X Y hX hY
  rcases s.exists_effect hs s₀ with ⟨hnamed,hidle⟩|⟨sources,f,he⟩
  · obtain ⟨-,-,hw⟩ := (outcome_idle hb.left hidle).of_eq h₀
    obtain ⟨-,-,hv⟩ := (outcome_idle hb.right hidle).of_eq h₁
    exact hb.alike _ (hn _ hnamed) (hw.mp hX) (hv.mp hY)
  · obtain ⟨-,Xs,hXs,hXs'⟩ := (outcome_effect hb.left he hb.leftData.objects
      hb.leftData.links).of_eq h₀
    obtain ⟨-,Ys,hYs,hYs'⟩ := (outcome_effect hb.right he (hb.rightData.objects.trans hb.objects)
      (hb.rightData.links.trans hb.links)).of_eq h₁
    have halike := alike_supplied
      (hb.leftData.objects.trans (hb.rightData.objects.trans hb.objects).symm)
      (fun x hx hc => hb.alike _ (hn _ (he.named x hx hc))) hXs hYs
    rw [Prod.ext (hX.unique hXs').1 (hX.unique hXs').2,Prod.ext (hY.unique hYs').1 (hY.unique hYs').2]
    exact he.alike halike

/-- A result that is fetched comes from a container that is there. -/
theorem find?_of_itemTables {source : String} {names : List String} {t : TableId × TableId}
    {s s' : Store} (h : Store.itemTables source names s = .ok t s') :
    ∃ c, s.containers.find? source = some c := by
  cases hc : s.containers.find? source with
  | some c => exact ⟨c,rfl⟩
  | none =>
    have hfail : Store.container source s = .error (.unknownContainer source) s := by
      simp only [Store.container,bind_apply,get_apply,hc,throw_apply]
    rw [Store.itemTables,bind_of_error hfail] at h
    cases h

theorem labelled_eq_ok {α : Type} {work : WorkStep α} {a : α}
    (h : labelled label work w = .ok a w') : work w = .ok a w' := by
  rw [labelled,EStateM.run] at h
  cases hx : work w with
  | ok b u =>
    rw [hx] at h
    exact h
  | error e u =>
    rw [hx] at h
    cases h

/-- A step that is fetched puts what the container offers in the place of its result. -/
theorem writes_fetch {source : String} (hw : w.Orderly) (hv : v.Orderly)
    (hd : s₁.SameData v.store) (ho : Offers s₁ s source w)
    (h : runStep config label s (.fetch source) v = .ok () v') :
    v.Writes s.step.result.joinedName v' ∧ AlikeAt s.step.result.joinedName w v' := by
  obtain ⟨X,hX,hoffer⟩ := ho
  obtain ⟨t,v₁,ht,-⟩ := bind_eq_ok.mp h
  have hlift := labelled_eq_ok ht
  rw [lift_apply] at hlift
  obtain ⟨c,hc⟩ : ∃ c, v.store.containers.find? source = some c := by
    cases hx : Store.itemTables source s.step.result.names v.store with
    | ok a s => exact find?_of_itemTables hx
    | error e s =>
      rw [hx] at hlift
      cases hlift
  obtain ⟨hco,hcl,halike⟩ := hoffer c (by rw [← hd.containers]; exact hc)
  have hwrote := (outcome_fetch hv hc hco hcl s.step.result.joinedName s.step.result.names).of_eq h
  refine ⟨.wrote hv hwrote (halike.numbered (hw.numbered hX)),?_⟩
  intro Z Y hZ hY
  obtain ⟨hZ₁,hZ₂⟩ := hZ.unique hX
  obtain ⟨hY₁,hY₂⟩ := hY.unique hwrote.entry
  rw [Prod.ext hZ₁ hZ₂]
  exact (Prod.ext hY₁ hY₂ : Y = (_,_)) ▸ halike

/-- One step of both runs keeps what the later steps of the second one need alike. -/
theorem Beside.step (hb : Beside s₀ s₁ names w v) (hs : s.Enacted) {mode mode₀ : StepMode}
    {names₀ : List String} (hm₀ : Scheduled .empty finalName s steps mode₀ names₀)
    (hm : Scheduled cached finalName s steps mode names) {label' : String}
    (h₀ : runStep config₀ label s mode₀ w = .ok () w') (h₁ : runStep config₁ label' s mode v = .ok () v')
    (hf : ∀ source, mode = .fetch source → Offers s₁ s source w') :
    Beside s₀ s₁ (needed cached finalName steps) w' v' := by
  -- A result that the second run needs is replayed by the first one.
  have hmode₀ : s.step.result.joinedName ∈ needed cached finalName steps → mode₀ = .execute := by
    intro hn
    cases hm₀ with
    | skip unneeded => exact absurd (needed_uncached hn) unneeded
    | fetch wanted found =>
      rw [commonSource?_empty] at found
      cases found
    | execute => rfl
  have hw : w.Writes s.step.result.joinedName w' := by
    cases hm₀ with
    | skip unneeded =>
      cases h₀
      exact ⟨hb.left,.refl _,fun _ he => he⟩
    | fetch wanted found =>
      rw [commonSource?_empty] at found
      cases found
    | execute => exact writes_execute hs hb.left hb.leftData h₀
  have hkeep : v.Writes s.step.result.joinedName v' →
      (∀ n ∈ needed cached finalName steps, n ≠ s.step.result.joinedName → n ∈ names) →
      (s.step.result.joinedName ∈ needed cached finalName steps →
        AlikeAt s.step.result.joinedName w' v') →
      Beside s₀ s₁ (needed cached finalName steps) w' v' := by
    intro hv hnames hresult
    refine ⟨hw.orderly,hv.orderly,hb.leftData.trans hw.data,hb.rightData.trans hv.data,hb.objects,
      hb.links,fun n hn => ?_⟩
    by_cases he : n = s.step.result.joinedName
    · exact he ▸ hresult (he ▸ hn)
    · exact fun hX hY => hb.alike n (hnames n hn he) (hw.others he hX) (hv.others he hY)
  cases hm with
  | skip unneeded =>
    cases h₁
    exact hkeep ⟨hb.right,.refl _,fun _ he => he⟩ (fun n hn _ => hn) fun hn => absurd hn unneeded
  | @fetch source wanted found =>
    obtain ⟨hv,halike⟩ := writes_fetch hw.orderly hb.right hb.rightData (hf source rfl) h₁
    exact hkeep hv (fun n hn he => List.mem_filter.mpr ⟨hn,decide_eq_true he⟩) fun _ => halike
  | execute wanted missing =>
    have hv := writes_execute hs hb.right (hb.rightData) h₁
    rw [hmode₀ wanted] at h₀
    refine hkeep hv (fun n hn he => List.mem_append_left _
      (List.mem_filter.mpr ⟨hn,decide_eq_true he⟩)) fun _ => ?_
    exact alikeAt_execute hs hb (fun n hn => List.mem_append_right _ hn) h₀ h₁

/-- In the end the last results of both runs are alike. -/
theorem beside_runSteps {total₀ total₁ : Nat} : ∀ (steps : List PlanStep) (p₀ p₁ : Nat)
    {w v w' v' : Workspace}, (∀ s ∈ steps, s.Enacted) →
      Beside s₀ s₁ (needed cached finalName steps) w v →
      runSteps config₀ total₀ p₀ (scheduled .empty finalName steps) w = .ok () w' →
      runSteps config₁ total₁ p₁ (scheduled cached finalName steps) v = .ok () v' →
      (∀ i s source, (scheduled cached finalName steps)[i]? = some (s,.fetch source) →
        ∃ u, runSteps config₀ total₀ p₀ ((scheduled .empty finalName steps).take (i+1)) w =
          .ok () u ∧ Offers s₁ s source u) →
      Beside s₀ s₁ [finalName] w' v'
  | [], _, _, _, _, _, _, _, hb, h₀, h₁, _ => by
    cases h₀
    cases h₁
    exact hb
  | s :: steps, p₀, p₁, w, v, w', v', hs, hb, h₀, h₁, hf => by
    obtain ⟨mode₀,names₀,hm₀,hscheduled₀,-⟩ := exists_scheduled .empty finalName s steps
    obtain ⟨mode,names,hm,hscheduled,hneeded⟩ := exists_scheduled cached finalName s steps
    rw [hscheduled₀] at h₀ hf
    rw [hscheduled] at h₁ hf
    rw [hneeded] at hb
    obtain ⟨⟨⟩,w₁,hw₁,h₀⟩ := bind_eq_ok.mp h₀
    obtain ⟨⟨⟩,v₁,hv₁,h₁⟩ := bind_eq_ok.mp h₁
    have hfirst : ∀ source, mode = .fetch source → Offers s₁ s source w₁ := by
      intro source hsource
      obtain ⟨u,hu,ho⟩ := hf 0 s source (by rw [hsource]; rfl)
      obtain ⟨⟨⟩,u₁,hu₁,hu⟩ := bind_eq_ok.mp hu
      cases hu
      rw [hw₁] at hu₁
      cases hu₁
      exact ho
    refine beside_runSteps steps (p₀+1) (p₁+1) (fun x hx => hs x (List.mem_cons_of_mem _ hx))
      (hb.step (hs s List.mem_cons_self) hm₀ hm hw₁ hv₁ hfirst) h₀ h₁ fun i x source hx => ?_
    obtain ⟨u,hu,ho⟩ := hf (i+1) x source hx
    obtain ⟨⟨⟩,u₁,hu₁,hu⟩ := bind_eq_ok.mp hu
    rw [hw₁] at hu₁
    cases hu₁
    exact ⟨u,hu,ho⟩

/-! ## Whole runs -/

/-- Making room for a container changes nothing but the containers, of which none is new. -/
theorem outcome_clearDestination (config : ExecutionConfig) (destination : String) (s : Store) :
    Outcome (clearDestination config destination) (.fresh s)
      (fun _ w => ∃ s', w = .fresh s' ∧ s'.objects = s.objects ∧ s'.links = s.links ∧
        destination ∉ s'.containers.keys ∧
        ∀ {n c}, s'.containers.find? n = some c → s.containers.find? n = some c) True := by
  have hhas : (liftM (Store.hasContainer destination) : WorkStep Bool) (.fresh s) =
      .ok (s.containers.contains destination) (.fresh s) := rfl
  refine .after hhas ?_
  cases hc : s.containers.contains destination with
  | false =>
    refine .of_ok (a:=⟨⟩) (t:=.fresh s) rfl ⟨s,rfl,rfl,rfl,fun hk => ?_,id⟩
    rw [OrderedMap.contains_iff.mpr hk] at hc
    cases hc
  | true =>
    cases hr : config.replaceExisting with
    | false => exact .of_error (e:=.state (.destinationExists destination)) (t:=.fresh s) rfl trivial
    | true =>
      obtain ⟨c,hfound⟩ := Option.isSome_iff_exists.mp hc
      have hcontainer : Store.container destination s = .ok c s := by
        simp only [Store.container,bind_apply,get_apply,hfound,pure_apply]
      have hdelete : Store.deleteContainer destination s =
          .ok ⟨⟩ { s with containers := s.containers.erase destination } := by
        rw [Store.deleteContainer,bind_of_ok hcontainer]
        rfl
      refine .of_ok (a:=⟨⟩) (t:=.fresh { s with containers := s.containers.erase destination }) ?_
        ⟨_,rfl,rfl,rfl,?_,fun {n c} hn => ?_⟩
      · exact (lift_apply _ _).trans (by rw [show (Workspace.fresh s).store = s from rfl,hdelete]; rfl)
      · rw [OrderedMap.keys_erase]
        simp
      · rw [OrderedMap.find?_erase] at hn
        split at hn
        · cases hn
        · exact hn

/-- A run up to some number of its steps. -/
def runUpTo (config : ExecutionConfig) (q : Query) (steps : List PlanStep)
    (finalName destination : String) (count : Nat) : WorkStep Unit := do
  clearDestination config destination
  runSteps config steps.length 1 ((planned q finalName steps).take count)

/-- For every step that a run fetches, the container offers what another run of the same steps holds
under the name of the result, right after that step: the same matches, up to the order of rows and
their numbers. -/
def Recalls (s : Store) (steps : List (PlanStep × StepMode)) (upTo : Nat → WorkStep Unit) : Prop :=
  ∀ i p source, steps[i]? = some (p,.fetch source) →
    ∃ w X, upTo (i+1) (.fresh s) = .ok () w ∧ w.Entry p.step.result.joinedName X.1 X.2 ∧
      ∃ t s' Y, Store.itemTables source p.step.result.names s = .ok t s' ∧
        s'.Holds t.1 Column.matched Y.1 ∧ s'.Holds t.2 Column.matched Y.2 ∧ Alike X Y

theorem offers_of_itemTables {p : PlanStep} {source : String} {s s₁ s' : Store}
    (hold : ∀ {n c}, s₁.containers.find? n = some c → s.containers.find? n = some c)
    {X Y : Rows × Rows} {t : TableId × TableId} (hX : w.Entry p.step.result.joinedName X.1 X.2)
    (ht : Store.itemTables source p.step.result.names s = .ok t s')
    (ho : s'.Holds t.1 Column.matched Y.1) (hl : s'.Holds t.2 Column.matched Y.2)
    (halike : Alike X Y) : Offers s₁ p source w := by
  refine ⟨X,hX,fun c hc => ?_⟩
  obtain ⟨ho',hl',-⟩ := (Store.outcome_itemTables (hold hc) _).of_eq ht
  have ho'' := Option.some_inj.mp (ho.symm.trans ho'.holds)
  have hl'' := Option.some_inj.mp (hl.symm.trans hl'.holds)
  obtain ⟨hco,hro⟩ := Table.mk.inj ho''
  obtain ⟨hcl,hrl⟩ := Table.mk.inj hl''
  refine ⟨hco.symm,hcl.symm,?_⟩
  rw [← hro,← hrl]
  exact halike

/-- Two containers hold the same matches, up to the order of rows and their numbers. -/
def SameMatches (c c' : StoredContainer) : Prop :=
  c.objects.columns = c'.objects.columns ∧ c.links.columns = c'.links.columns ∧
    Alike (c.objects.rows,c.links.rows) (c'.objects.rows,c'.links.rows)

theorem sameMatches_contained {X Y : Rows × Rows} (h : Alike X Y) :
    SameMatches (contained X.1 X.2) (contained Y.1 Y.2) := by
  obtain ⟨σ,ho,hl⟩ := h
  exact ⟨rfl,rfl,σ,ho.laid.congr fun i => by rcases i with _|_|_|i <;> rfl,
    hl.laid.congr fun i => by rcases i with _|_|_|i <;> rfl⟩

variable {q₀ q₁ : Query} {destination₀ destination₁ : String} {s : Store}
  {report₀ report₁ : ExecutionReport}

/-- Two runs of the same steps leave the same matches, if the first one fetches nothing and what the
second one fetches is what the first one holds. -/
theorem sameMatches_runPlan (hs : ∀ x ∈ steps, x.Enacted)
    (h₀ : q₀.cachedItems .whole = .empty)
    (hrecalls : Recalls s (planned q₁ finalName steps)
      (runUpTo config₀ q₀ steps finalName destination₀))
    (hrun₀ : runPlan config₀ q₀ steps finalName destination₀ (.fresh s) = .ok report₀ w)
    (hrun₁ : runPlan config₁ q₁ steps finalName destination₁ (.fresh s) = .ok report₁ v) :
    ∃ c₀ c₁, w.store.containers.find? destination₀ = some c₀ ∧
      v.store.containers.find? destination₁ = some c₁ ∧ SameMatches c₀ c₁ := by
  rw [runPlan_eq] at hrun₀ hrun₁
  obtain ⟨⟨⟩,w₁,hclear₀,hrun₀⟩ := bind_eq_ok.mp hrun₀
  obtain ⟨⟨⟩,w₂,hsteps₀,hend₀⟩ := bind_eq_ok.mp hrun₀
  obtain ⟨⟨⟩,v₁,hclear₁,hrun₁⟩ := bind_eq_ok.mp hrun₁
  obtain ⟨⟨⟩,v₂,hsteps₁,hend₁⟩ := bind_eq_ok.mp hrun₁
  obtain ⟨s₀,rfl,ho₀,hl₀,hd₀,-⟩ := (outcome_clearDestination _ _ _).of_eq hclear₀
  obtain ⟨s₁,rfl,ho₁,hl₁,hd₁,hold⟩ := (outcome_clearDestination _ _ _).of_eq hclear₁
  have hplanned := planned_uncached h₀ finalName steps
  have hstart : Beside s₀ s₁ (needed (q₁.cachedItems .whole) finalName steps) (.fresh s₀)
      (.fresh s₁) := by
    refine ⟨orderly_fresh s₀,orderly_fresh s₁,.refl _,.refl _,ho₁.trans ho₀.symm,hl₁.trans hl₀.symm,
      fun n _ X Y hX => ?_⟩
    obtain ⟨e,he,-⟩ := hX
    cases he
  rw [hplanned] at hsteps₀ hend₀
  have hb := beside_runSteps steps 1 1 hs hstart hsteps₀ hsteps₁
    fun i p source hi => by
      obtain ⟨u,X,hu,hX,t,s',Y,ht,hYo,hYl,halike⟩ := hrecalls i p source hi
      obtain ⟨⟨⟩,u₁,hclear,hu⟩ := bind_eq_ok.mp hu
      rw [hclear₀] at hclear
      cases hclear
      rw [hplanned] at hu
      exact ⟨u,hu,offers_of_itemTables hold hX ht hYo hYl halike⟩
  obtain ⟨-,O,L,hX,hc₀⟩ := (ends_conclude hb.left
    (by rw [hb.leftData.containers]; exact hd₀) q₀ _).of_eq hend₀
  obtain ⟨-,O',L',hY,hc₁⟩ := (ends_conclude hb.right
    (by rw [hb.rightData.containers]; exact hd₁) q₁ _).of_eq hend₁
  exact ⟨_,_,hc₀,hc₁,sameMatches_contained
    (hb.alike finalName List.mem_cons_self (X:=(O,L)) (Y:=(O',L')) hX hY)⟩

/-- Fetching is as good as replaying. For every solved plan of a query that is built, whatever the
store and whatever the name of the last result, compare a run without cached items with a run with
any cached items, where every container that the second run fetches from offers what the first run
holds right after that step. If both runs answer, the two containers hold the same matches, up to
the order of rows and the numbers of matches. A step of the second run is left out exactly when its
result is not the last one and no step that is replayed names it before another step writes it
again: so every step is left out that only feeds steps that are fetched or left out. A run asks its
query for nothing but the cached items and the derived links, so any queries may stand for the two
runs. -/
theorem runPlan_of_recalls {d : Description} {q : Query} {plan : Plan} {rules : List Rule}
    {search : SearchConfig} (hq : d.build = .ok q) (hr : ∀ rule ∈ rules, rule ∈ Rule.builtIn)
    (hplan : Plan.ofQuery rules search q = .ok plan) (hsolved : plan.isSolved = true)
    (h₀ : q₀.cachedItems .whole = .empty)
    (hrecalls : Recalls s (planned q₁ finalName plan.steps)
      (runUpTo config₀ q₀ plan.steps finalName destination₀))
    (hrun₀ : runPlan config₀ q₀ plan.steps finalName destination₀ (.fresh s) = .ok report₀ w)
    (hrun₁ : runPlan config₁ q₁ plan.steps finalName destination₁ (.fresh s) = .ok report₁ v) :
    (∃ c₀ c₁, w.store.containers.find? destination₀ = some c₀ ∧
      v.store.containers.find? destination₁ = some c₁ ∧ SameMatches c₀ c₁) ∧
    ∀ i p mode, (planned q₁ finalName plan.steps)[i]? = some (p,mode) →
      (mode = .skip ↔ ¬Wanted finalName p.step.result.joinedName
        ((planned q₁ finalName plan.steps).drop (i+1))) := by
  have hs := Plan.enacted hr (Description.written_build hq)
    (Plan.comparable_of_isSolved hq hr hplan hsolved) hplan
  exact ⟨sameMatches_runPlan hs h₀ hrecalls hrun₀ hrun₁,fun i p mode hi => skip_iff hi⟩

/-- Two vertices and an edge, as described, all of them cached. -/
def remembered : Description :=
  ⟨"q","",⟨[⟨"A",none,none⟩,⟨"B",none,none⟩],[⟨"e","A","B",true,none,none⟩],[],[],
    [⟨"A","old"⟩,⟨"B","old"⟩,⟨"e","old"⟩]⟩,[]⟩

/-- Two objects, the link between them, and a container that holds them under another number. -/
def remembering : Store :=
  { Store.empty with
    objects := ⟨[(1,.empty),(2,.empty)]⟩
    links := ⟨[(1,⟨1,2,.empty⟩)]⟩
    containers := ⟨[("old",⟨⟨Column.matched,[[.int 2,.int 5,.string "B"],[.int 1,.int 5,.string "A"]]⟩,
      ⟨Column.matched,[[.int 1,.int 5,.string "e"]]⟩⟩)]⟩ }

/-- What a run holds under a name after some steps, if they answer. -/
def held? (upTo : WorkStep Unit) (name : String) (s : Store) : Option (Table × Table) :=
  match upTo (.fresh s) with
  | .ok _ w => do
    let e ← w.registry.find? name
    return (← w.store.tables.find? e.objects,← w.store.tables.find? e.links)
  | .error _ _ => none

theorem entry_of_held? {upTo : WorkStep Unit} {name : String} {O L : Rows}
    (h : held? upTo name s = some (⟨Column.matched,O⟩,⟨Column.matched,L⟩)) :
    ∃ w, upTo (.fresh s) = .ok () w ∧ w.Entry name O L := by
  rw [held?] at h
  split at h
  · rename_i w hw
    obtain ⟨e,he,h⟩ := Option.bind_eq_some_iff.mp h
    obtain ⟨o,ho,h⟩ := Option.bind_eq_some_iff.mp h
    obtain ⟨l,hl,h⟩ := Option.bind_eq_some_iff.mp h
    cases h
    exact ⟨w,hw,e,he,ho,hl⟩
  · cases h

/-- Whether some work answers. -/
def answered {α : Type} (work : WorkStep α) (s : Store) : Bool :=
  match work (.fresh s) with
  | .ok _ _ => true
  | .error _ _ => false

theorem exists_of_answered {α : Type} {work : WorkStep α} (h : answered work s = true) :
    ∃ a w, work (.fresh s) = .ok a w := by
  rw [answered] at h
  split at h
  · rename_i a w hw
    exact ⟨a,w,hw⟩
  · cases h

/-- The edge is fetched, and the steps that lead to it are left out. -/
theorem runPlan_of_recalls_remembered : ∃ q plan w v c₀ c₁, remembered.build = .ok q ∧
    Plan.ofQuery Rule.builtIn .standard q = .ok plan ∧ plan.isSolved = true ∧
    (∃ report, runPlan .standard (.bare "q" "") plan.steps "A.B.e" "out" (.fresh remembering) =
      .ok report w) ∧
    (∃ report, runPlan .standard q plan.steps "A.B.e" "out" (.fresh remembering) = .ok report v) ∧
    w.store.containers.find? "out" = some c₀ ∧ v.store.containers.find? "out" = some c₁ ∧
    SameMatches c₀ c₁ ∧
    ∀ p mode, (planned q "A.B.e" plan.steps)[0]? = some (p,mode) → mode = .skip ∧
      ¬Wanted "A.B.e" p.step.result.joinedName ((planned q "A.B.e" plan.steps).drop 1) := by
  obtain ⟨q,plan,last,hq,-,hplan,hsolved,-,hcheck⟩ := exists_solved (d:=remembered)
    (c:=fun q plan _ => decide ((planned q "A.B.e" plan.steps).map
        (fun x => (x.1.step.result.joinedName,x.1.step.result.names,x.2)) =
          [("A",["A"],.skip),("B",["B"],.skip),("A.B.e",["A","B","e"],.fetch "old")]) &&
      decide (held? (runUpTo .standard (.bare "q" "") plan.steps "A.B.e" "out" 3) "A.B.e"
          remembering = some (⟨Column.matched,[[.int 1,.int 1,.string "A"],[.int 2,.int 1,.string "B"]]⟩,
            ⟨Column.matched,[[.int 1,.int 1,.string "e"]]⟩)) &&
      answered (runPlan .standard (.bare "q" "") plan.steps "A.B.e" "out") remembering &&
      answered (runPlan .standard q plan.steps "A.B.e" "out") remembering) (by
      rw [Description.build,Description.addAll_flat rfl]
      decide +kernel)
  simp only [Bool.and_eq_true,decide_eq_true_eq] at hcheck
  obtain ⟨⟨⟨hmodes,hheld⟩,hrun₀⟩,hrun₁⟩ := hcheck
  obtain ⟨report₀,w,hrun₀⟩ := exists_of_answered hrun₀
  obtain ⟨report₁,v,hrun₁⟩ := exists_of_answered hrun₁
  obtain ⟨u,hu,hentry⟩ := entry_of_held? hheld
  have hmode : ∀ (i : Nat) (p : PlanStep) (mode : StepMode), (planned q "A.B.e" plan.steps)[i]? = some (p,mode) →
      [("A",["A"],StepMode.skip),("B",["B"],.skip),("A.B.e",["A","B","e"],.fetch "old")][i]? =
        some (p.step.result.joinedName,p.step.result.names,mode) := fun i p mode hi => by
    rw [← hmodes,List.getElem?_map,hi]
    rfl
  have hrecalls : Recalls remembering (planned q "A.B.e" plan.steps)
      (runUpTo .standard (.bare "q" "") plan.steps "A.B.e" "out") := by
    intro i p source hi
    have hi := hmode i p _ hi
    rcases i with _|_|_|i
    · simp at hi
    · simp at hi
    · obtain ⟨hname,hnames,hsource⟩ : "A.B.e" = p.step.result.joinedName ∧
          ["A","B","e"] = p.step.result.names ∧ "old" = source := by simpa using hi
      have hfound : remembering.containers.find? "old" = some
          ⟨⟨Column.matched,[[.int 2,.int 5,.string "B"],[.int 1,.int 5,.string "A"]]⟩,
            ⟨Column.matched,[[.int 1,.int 5,.string "e"]]⟩⟩ := rfl
      obtain ⟨t,s',ht,ho,hl,-⟩ := (Store.outcome_itemTables hfound ["A","B","e"]).ok
      refine ⟨u,(_,_),hu,hname ▸ hentry,t,s',(_,_),?_,ho.holds,hl.holds,Equiv.swap 1 5,?_,?_⟩
      · rw [← hnames,← hsource]
        exact ht
      · unfold Renames
        decide +kernel
      · unfold Renames
        decide +kernel
    · cases hi
  obtain ⟨⟨c₀,c₁,hc₀,hc₁,hsame⟩,hskip⟩ := runPlan_of_recalls hq (fun _ hr => hr) hplan hsolved rfl
    hrecalls hrun₀ hrun₁
  refine ⟨q,plan,w,v,c₀,c₁,hq,hplan,hsolved,⟨_,hrun₀⟩,⟨_,hrun₁⟩,hc₀,hc₁,hsame,fun p mode hp => ?_⟩
  obtain ⟨-,-,hmode⟩ : "A" = p.step.result.joinedName ∧ ["A"] = p.step.result.names ∧
      StepMode.skip = mode := by simpa using hmode 0 p mode hp
  exact ⟨hmode.symm,(hskip 0 p mode hp).mp hmode.symm⟩

end Execution

end GraphPattern
