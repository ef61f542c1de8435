import GraphPattern.Proofs.Custody.Run
import GraphPattern.Proofs.Execution.Answer

/-!
# Failed runs

A run that fails leaves the objects, the links and the containers as they were, but for a container
that was deleted to make room for the new one. For the new container is created when all steps have
succeeded, it is deleted again if it cannot be made durable, and nothing that comes after that can
fail.
-/

namespace GraphPattern

open Step Workspace

variable {α : Type} {w w' : Workspace} {destination : String}

/-! ## Replays that succeed -/

namespace Rule

variable {r : Replay} {a : Option String}

theorem item_eq_ok {x : Application} {n : Nat} {v : ItemId} (h : x.item n = .ok v) :
    x.items[n]? = some v := by
  rw [Application.item] at h
  split at h
  · cases h
    assumption
  · cases h

theorem replayedEdge_eq_ok {n : Nat} {y : Item} {ends : EdgeEnds}
    (h : replayedEdge r n = .ok (y,ends)) :
    ∃ e, r.application.items[n]? = some e ∧ r.before.item? e = some y ∧ y.ends? = some ends := by
  rw [replayedEdge] at h
  cases he : r.application.item n with
  | error e =>
    rw [he] at h
    cases h
  | ok e =>
    cases hy : r.before.item e with
    | error e' =>
      rw [he,ok_bind,hy] at h
      cases h
    | ok z =>
      rw [he,ok_bind,hy,ok_bind] at h
      split at h
      · cases h
        exact ⟨e,item_eq_ok he,Query.item?_of_item hy,by assumption⟩
      · cases h

theorem eq_cons {l : List ItemId} {v : ItemId} (h : l[0]? = some v) : ∃ rest, l = v :: rest := by
  cases l with
  | nil => cases h
  | cons u rest =>
    cases h
    exact ⟨rest,rfl⟩

/-- The vertex and the edge that a replay reads are the first items of its application. -/
theorem items_of_loop {v : ItemId} {y : Item} {ends : EdgeEnds}
    (hv : r.application.item 0 = .ok v) (hy : replayedEdge r 1 = .ok (y,ends)) :
    ∃ e rest, r.application.items = v :: e :: rest ∧ r.before.item? e = some y ∧
      y.ends? = some ends := by
  obtain ⟨e,he,hy,hends⟩ := replayedEdge_eq_ok hy
  obtain ⟨items,hi⟩ := eq_cons (item_eq_ok hv)
  rw [hi] at he
  obtain ⟨rest,rfl⟩ := eq_cons (l:=items) he
  exact ⟨e,rest,hi,hy,hends⟩

/-- The vertices and the edge that a replay reads are the first items of its application. -/
theorem items_of_edge {v u : ItemId} {y : Item} {ends : EdgeEnds}
    (hv : r.application.item 0 = .ok v) (hu : r.application.item 2 = .ok u)
    (hy : replayedEdge r 1 = .ok (y,ends)) :
    ∃ e rest, r.application.items = v :: e :: u :: rest ∧ r.before.item? e = some y ∧
      y.ends? = some ends := by
  obtain ⟨e,items,hi,hy,hends⟩ := items_of_loop hv hy
  have hu := item_eq_ok hu
  rw [hi] at hu
  obtain ⟨rest,rfl⟩ := eq_cons (l:=items) hu
  exact ⟨e,rest,hi,hy,hends⟩

theorem withScratch_eq_ok {x : WorkStep α} {b : α} (h : withScratch x w = .ok b w') :
    ∃ w₁, x { w with scratch := [] } = .ok b w₁ := by
  rw [withScratch,EStateM.run] at h
  split at h
  · cases h
    exact ⟨_,by assumption⟩
  · cases h

theorem item?_of_vertexTables {q : Query} {v : ItemId} {t : SubgraphTables}
    (h : vertexTables q v w = .ok t w') : ∃ x, q.item? v = some x := by
  obtain ⟨x,_,hx,-⟩ := bind_eq_ok.mp h
  exact ⟨x,Query.item?_of_item (lift_eq_ok.mp hx).1⟩

theorem GetVertex.orderly_replay (hw : w.Orderly) (h : GetVertex.replay r w = .ok a w') :
    w'.Orderly := by
  obtain ⟨v,_,hv,h₁⟩ := bind_eq_ok.mp h
  obtain ⟨x,_,hx,-⟩ := bind_eq_ok.mp h₁
  obtain ⟨rest,hi⟩ := eq_cons (item_eq_ok (lift_eq_ok.mp hv).1)
  have hx := Query.item?_of_item (lift_eq_ok.mp hx).1
  exact hw.wrote ((GetVertex.outcome_replay hw.sound hi hx).of_eq h).2 (.ofObjects _ _ _)

theorem AbsorbSelfLoop.orderly_replay (hw : w.Orderly) (h : AbsorbSelfLoop.replay r w = .ok a w') :
    w'.Orderly := by
  obtain ⟨v,_,hv,h₁⟩ := bind_eq_ok.mp h
  obtain ⟨⟨y,ends⟩,_,hy,h₂⟩ := bind_eq_ok.mp h₁
  obtain ⟨_,_,hs,-⟩ := bind_eq_ok.mp h₂
  obtain ⟨_,hs⟩ := withScratch_eq_ok hs
  obtain ⟨_,_,ht,-⟩ := bind_eq_ok.mp hs
  obtain ⟨x,hx⟩ := item?_of_vertexTables ht
  obtain ⟨e,rest,hi,hy,hends⟩ := items_of_loop (lift_eq_ok.mp hv).1 (lift_eq_ok.mp hy).1
  obtain ⟨-,X,hX,hwrote⟩ := (AbsorbSelfLoop.outcome_replay hw.sound hi hx hy hends).of_eq h
  exact hw.wrote hwrote (.absorbSelfLoop (hw.supplied hX))

theorem CollapseEdge.orderly_replay (hw : w.Orderly) (h : CollapseEdge.replay r w = .ok a w') :
    w'.Orderly := by
  obtain ⟨v,_,hv,h₁⟩ := bind_eq_ok.mp h
  obtain ⟨u,_,hu,h₂⟩ := bind_eq_ok.mp h₁
  obtain ⟨⟨y,ends⟩,_,hy,h₃⟩ := bind_eq_ok.mp h₂
  obtain ⟨_,_,hs,-⟩ := bind_eq_ok.mp h₃
  obtain ⟨_,hs⟩ := withScratch_eq_ok hs
  obtain ⟨_,_,ht,hs⟩ := bind_eq_ok.mp hs
  obtain ⟨_,_,ht',-⟩ := bind_eq_ok.mp hs
  obtain ⟨x,hx⟩ := item?_of_vertexTables ht
  obtain ⟨z,hz⟩ := item?_of_vertexTables ht'
  obtain ⟨e,rest,hi,hy,hends⟩ := items_of_edge (lift_eq_ok.mp hv).1 (lift_eq_ok.mp hu).1
    (lift_eq_ok.mp hy).1
  obtain ⟨-,X,Z,hX,hZ,hwrote⟩ :=
    (CollapseEdge.outcome_replay hw.sound hi hx hy hz hends).of_eq h
  exact hw.wrote hwrote (.collapseEdge (hw.supplied hX) (hw.supplied hZ))

theorem AbsorbAnnotatedVertex.orderly_replay (hw : w.Orderly)
    (h : AbsorbAnnotatedVertex.replay r w = .ok a w') : w'.Orderly := by
  obtain ⟨v,_,hv,h₁⟩ := bind_eq_ok.mp h
  obtain ⟨u,_,hu,h₂⟩ := bind_eq_ok.mp h₁
  obtain ⟨⟨y,ends⟩,_,hy,h₃⟩ := bind_eq_ok.mp h₂
  obtain ⟨z,_,hz,h₄⟩ := bind_eq_ok.mp h₃
  obtain ⟨_,_,hs,-⟩ := bind_eq_ok.mp h₄
  obtain ⟨_,hs⟩ := withScratch_eq_ok hs
  obtain ⟨_,_,ht,-⟩ := bind_eq_ok.mp hs
  obtain ⟨x,hx⟩ := item?_of_vertexTables ht
  have hz := Query.item?_of_item (lift_eq_ok.mp hz).1
  obtain ⟨e,rest,hi,hy,hends⟩ := items_of_edge (lift_eq_ok.mp hv).1 (lift_eq_ok.mp hu).1
    (lift_eq_ok.mp hy).1
  obtain ⟨-,X,Z,hX,hZ,hwrote⟩ :=
    (AbsorbAnnotatedVertex.outcome_replay hw.sound hi hx hy hz hends).of_eq h
  exact hw.wrote hwrote (.absorbAnnotatedVertex (hw.supplied hX) (hw.supplied hZ))

theorem ApplyUpperLimit.orderly_replay (hw : w.Orderly)
    (h : ApplyUpperLimit.replay r w = .ok a w') : w'.Orderly := by
  obtain ⟨v,_,hv,h₁⟩ := bind_eq_ok.mp h
  obtain ⟨x,_,hitem,h₂⟩ := bind_eq_ok.mp h₁
  obtain ⟨hfirst,rfl⟩ := lift_eq_ok.mp hv
  obtain ⟨hx,rfl⟩ := lift_eq_ok.mp hitem
  obtain ⟨rest,hi⟩ := eq_cons (item_eq_ok hfirst)
  cases hp : x.provenance with
  | none =>
    rw [hp] at h₂
    cases h₂
  | some marker =>
    cases hm : marker.max with
    | none =>
      simp only [hp,hm] at h₂
      injection h₂ with _ hsame
      exact hsame ▸ hw
    | some max =>
      obtain ⟨-,X,hX,hwrote⟩ :=
        (ApplyUpperLimit.outcome_replay hw.sound hi (Query.item?_of_item hx) hp hm).of_eq h
      exact hw.wrote hwrote (.applyUpperLimit (hw.numbered hX))

theorem ProcessConstraint.binaryOperator_eq_ok {k : Constraint} {operator : Comparison}
    (h : ProcessConstraint.binaryOperator k = .ok operator) :
    Comparison.ofKeyword? k.operator = some operator ∧ operator.isBinary = true := by
  rw [ProcessConstraint.binaryOperator] at h
  split at h
  · rename_i found hfound
    cases h
    exact Option.filter_eq_some_iff.mp hfound
  · cases h

theorem ProcessConstraint.operand_of_satisfying {rows i : TableId} {kind : SourceKind}
    {operator : Comparison} {left right : Operand}
    (h : ProcessConstraint.satisfying rows kind operator left right w = .ok i w') :
    ¬(left.isLiteral = true ∧ right.isLiteral = true) := by
  rintro ⟨hl,hr⟩
  cases left with
  | item => cases hl
  | literal =>
    cases right with
    | item => cases hr
    | literal => cases h

theorem ProcessConstraint.orderly_replay (hw : w.Orderly)
    (h : ProcessConstraint.replay r w = .ok a w') : w'.Orderly := by
  obtain ⟨k,_,hk,h₁⟩ := bind_eq_ok.mp h
  obtain ⟨operator,_,ho,h₂⟩ := bind_eq_ok.mp h₁
  obtain ⟨_,_,hs,-⟩ := bind_eq_ok.mp h₂
  obtain ⟨_,hs⟩ := withScratch_eq_ok hs
  obtain ⟨current,_,-,hs⟩ := bind_eq_ok.mp hs
  obtain ⟨_,_,hv,-⟩ := bind_eq_ok.mp hs
  obtain ⟨hk,-⟩ := lift_eq_ok.mp hk
  obtain ⟨ho,hb⟩ := ProcessConstraint.binaryOperator_eq_ok (lift_eq_ok.mp ho).1
  have hsettled : r.application.constraint = some k := by
    rw [Application.settled] at hk
    split at hk
    · cases hk
      assumption
    · cases hk
  obtain ⟨-,X,hX,hwrote⟩ := (ProcessConstraint.outcome_replay hw.sound hsettled ho hb
    (ProcessConstraint.operand_of_satisfying hv)).of_eq h
  exact hw.wrote hwrote (.processConstraint (hw.numbered hX))

/-- A replay that succeeds leaves the registry in order, whatever is replayed. -/
theorem orderly_replay {rule : Rule} (hr : rule ∈ builtIn) (hw : w.Orderly)
    (h : rule.replay r w = .ok a w') : w'.Orderly := by
  simp only [builtIn,List.mem_cons,List.not_mem_nil,or_false] at hr
  rcases hr with rfl|rfl|rfl|rfl|rfl|rfl|rfl
  · exact GetVertex.orderly_replay hw h
  · exact AbsorbSelfLoop.orderly_replay hw h
  · exact CollapseEdge.orderly_replay hw h
  · exact AbsorbAnnotatedVertex.orderly_replay hw h
  · exact ApplyUpperLimit.orderly_replay hw h
  · cases h
    exact hw
  · exact ProcessConstraint.orderly_replay hw h

end Rule

namespace Execution

/-! ## Steps that succeed -/

/-- The containers are as the store keeps them. -/
def Kept (s : Store) : Prop := ∀ {name c}, s.containers.find? name = some c → c.Kept

theorem Kept.congr {s s' : Store} (h : Kept s) (hs : s.SameData s') : Kept s' := fun hc =>
  h (by rw [← hs.containers]; exact hc)

/-- A step that succeeds leaves the registry in order. -/
theorem orderly_runStep (config : ExecutionConfig) (label : String) {s : PlanStep}
    (hs : s.step.rule ∈ Rule.builtIn) (mode : StepMode) (hw : w.Orderly) (hk : Kept w.store) :
    Outcome (runStep config label s mode) w (fun _ w' => w'.Orderly) True := by
  cases mode with
  | skip => exact .of_ok rfl hw
  | fetch container =>
    cases hc : w.store.containers.find? container with
    | none =>
      have htables : (liftM (Store.itemTables container s.step.result.names) :
          WorkStep (TableId × TableId)) w = .error (.store (.unknownContainer container)) w := by
        rw [lift_apply,Store.itemTables,bind_apply,Store.container,bind_of_ok (get_apply _),hc]
        rfl
      refine .of_error (bind_of_error (e:=.step label (.unknownContainer container)) (t:=w) ?_ _)
        trivial
      rw [labelled,EStateM.run,htables]
      rfl
    | some c =>
      exact (outcome_fetch hw hc (hk hc).objects (hk hc).links _ _).imp
        (fun _ _ h => hw.wrote h ((hk hc).numbered.filter _)) False.elim
  | execute =>
    refine outcome_labelled (Outcome.bind (P:=fun _ w₁ => w₁.Orderly) ?_ fun _ w₁ h₁ => ?_)
    · rw [Outcome]
      split
      · rename_i h
        exact Rule.orderly_replay hs hw h
      · trivial
    · split
      · rw [Outcome,lift_apply]
        cases hc : w₁.store.failsCommits with
        | false =>
          rw [Store.commit_ok hc]
          exact h₁.commits _
        | true =>
          have hfail : Store.commit w₁.store = .error .commitFailed w₁.store := by
            simp only [Store.commit,bind_apply,get_apply,hc,if_true,throw_apply]
          rw [hfail]
          trivial
      · exact .of_ok rfl h₁

/-- Steps that succeed one after another leave the registry in order. -/
theorem orderly_runSteps (config : ExecutionConfig) (total : Nat) {F : TableId → Prop} :
    ∀ (steps : List (PlanStep × StepMode)) (position : Nat) (w : Workspace), w.Custody F →
      w.Orderly → Kept w.store → (∀ p ∈ steps, p.1.step.rule ∈ Rule.builtIn) →
      Outcome (runSteps config total position steps) w (fun _ w' => w'.Orderly) True
  | [], _, _, _, hw, _, _ => .of_ok rfl hw
  | (s,mode) :: steps, position, w, hc, hw, hk, hs => by
    have hrule := hs _ List.mem_cons_self
    have hstep := (ends_runStep config s!"{position}/{total} {s.step.text}" hrule mode hc).and
      (orderly_runStep config s!"{position}/{total} {s.step.text}" hrule mode hw hk)
    refine Ends.outcome (Ends.bind (hstep.imp (fun _ _ h => h) fun _ _ _ => trivial)
      fun _ w₁ ⟨⟨h₁,_⟩,hw₁⟩ => ?_)
    exact orderly_runSteps config total steps (position+1) w₁ h₁.custody hw₁
      (hk.congr h₁.data) fun p hp => hs p (List.mem_cons_of_mem _ hp)

/-! ## The whole run -/

/-- The source data and the containers are the same, but for a container that may have been deleted
if it was to be replaced. -/
structure Intact (config : ExecutionConfig) (destination : String) (s s' : Store) : Prop where
  /-- The objects are the same. -/
  objects : s'.objects = s.objects
  /-- The links are the same. -/
  links : s'.links = s.links
  /-- The containers are the same, or the old one is deleted. -/
  containers : s'.containers = s.containers ∨ (config.replaceExisting = true ∧
    destination ∈ s.containers.keys ∧ s'.containers = s.containers.erase destination)

theorem Intact.same {config : ExecutionConfig} {s s' s'' : Store}
    (h : Intact config destination s s') (h' : s'.SameData s'') : Intact config destination s s'' :=
  ⟨h'.objects.trans h.objects,h'.links.trans h.links,by rw [h'.containers]; exact h.containers⟩

theorem intact_of_sameData {config : ExecutionConfig} {s s' : Store}
    (hd : destination ∈ s.containers.keys → config.replaceExisting = true)
    (h : (cleared destination s).SameData s') : Intact config destination s s' := by
  refine ⟨h.objects,h.links,?_⟩
  by_cases hk : destination ∈ s.containers.keys
  · exact .inr ⟨hd hk,hk,h.containers⟩
  · exact .inl (h.containers.trans (OrderedMap.erase_of_not_mem hk))

theorem kept_cleared {s : Store} (hk : Kept s) (destination : String) :
    Kept (cleared destination s) := by
  intro name c hc
  rw [cleared,OrderedMap.find?_erase] at hc
  split at hc
  · cases hc
  · exact hk hc

/-- If the steps of a plan fail, or what comes after them, the data are intact. -/
theorem intact_runPlan (config : ExecutionConfig) (q : Query) {steps : List PlanStep}
    (hs : ∀ s ∈ steps, s.step.rule ∈ Rule.builtIn) (finalName destination : String) {s : Store}
    (hc : s.Counted) (hk : Kept s) :
    Ends (runPlan config q steps finalName destination) (.fresh s) (fun _ _ => True)
      fun _ w' => Intact config destination s w'.store := by
  rw [runPlan_eq]
  refine Ends.bind ((ends_clearDestination config destination (.fresh s)).imp (fun _ _ h => h)
    fun _ _ h => ?_) fun _ w₁ ⟨hd,hw₁⟩ => ?_
  · rw [h]
    exact ⟨rfl,rfl,.inl rfl⟩
  subst hw₁
  have hcounted : (cleared destination s).Counted := fun hi => hc hi
  have hcustody := custody_fresh hcounted
  have hrules : ∀ p ∈ planned q finalName steps, p.1.step.rule ∈ Rule.builtIn := fun p hp =>
    hs p.1 (List.of_mem_zip hp).1
  have hsteps := (ends_runSteps config steps.length _ 1 _ hcustody hrules).and
    (orderly_runSteps config steps.length _ 1 _ hcustody (orderly_fresh _)
      (kept_cleared hk destination) hrules)
  refine Ends.bind (hsteps.imp (fun _ _ h => h) fun _ w₂ h => intact_of_sameData hd ?_)
    fun _ w₂ ⟨h₂,hw₂⟩ => ?_
  · rcases h.1 with h|⟨_,_,_,_,_,_,_,_,h⟩
    · exact h.data
    · exact h.data
  · have hfree : destination ∉ w₂.store.containers.keys := by
      rw [h₂.data.containers]
      change destination ∉ (s.containers.erase destination).keys
      rw [OrderedMap.keys_erase]
      simp
    exact (ends_conclude hw₂ hfree q _).imp (fun _ _ _ => trivial) fun _ _ h =>
      intact_of_sameData hd (h₂.data.trans h.2)

/-- A run that fails leaves the objects and links and all containers but the destination as they
were. The destination is as it was too, or it existed, was to be replaced and is gone. -/
theorem run_fails_intact (config : ExecutionConfig) {plan : Plan}
    (hr : ∀ s ∈ plan.steps, s.step.rule ∈ Rule.builtIn) (destination : String) {s s' : Store}
    (hs : s.Counted) (hk : ∀ {name c}, s.containers.find? name = some c → c.Kept) {e : Error}
    (h : run config plan destination s = .error e s') :
    s'.objects = s.objects ∧ s'.links = s.links ∧ (s'.containers = s.containers ∨
      (config.replaceExisting = true ∧ destination ∈ s.containers.keys ∧
        s'.containers = s.containers.erase destination)) := by
  have hends : Ends (run config plan destination) s (fun _ _ => True)
      fun _ s' => Intact config destination s s' := by
    refine ends_run_of (fun q finalName => ends_onStore ?_) fun _ => ⟨rfl,rfl,.inl rfl⟩
    exact (intact_runPlan config q hr finalName destination hs hk).imp (fun _ _ _ => trivial)
      fun _ w h => h.same w.sameData_dropRegistry
  obtain ⟨ho,hl,hc⟩ := hends.of_eq_error h
  exact ⟨ho,hl,hc⟩

/-- A store with one object and an empty container. -/
def stored : Store :=
  { Store.empty with
    objects := OrderedMap.empty.insert 1 OrderedMap.empty
    containers := OrderedMap.empty.insert "out" ⟨⟨Column.matched,[]⟩,⟨Column.matched,[]⟩⟩ }

/-- The plan of three vertices with names that clash fails, and the container that it was to replace
is gone. -/
theorem run_fails_intact_branching : ∃ q plan e s, (branching "A.B.Y").build = .ok q ∧
    Plan.ofQuery Rule.builtIn .standard q = .ok plan ∧
    run ⟨true,false⟩ plan "out" stored = .error e s ∧ s.objects = stored.objects ∧
    s.links = stored.links ∧ s.containers = stored.containers.erase "out" := by
  obtain ⟨q,plan,last,hq,-,hplan,-,-,hcheck⟩ := exists_solved (d:=branching "A.B.Y")
    (c:=fun _ plan _ => failsWith (fun _ s => !s.containers.contains "out")
      (run ⟨true,false⟩ plan "out") stored) (by
      rw [Description.build,Description.addAll_flat rfl]
      decide +kernel)
  obtain ⟨e,s,hrun,hgone⟩ := exists_of_failsWith hcheck
  have hcounted : stored.Counted := counted_empty
  have hkept : ∀ {name c}, stored.containers.find? name = some c → c.Kept := by
    intro name c hc
    rw [stored,OrderedMap.find?_insert] at hc
    split at hc
    · cases hc
      exact ⟨rfl,rfl,by rintro _ ⟨⟩⟩
    · cases hc
  obtain ⟨ho,hl,hc⟩ := run_fails_intact ⟨true,false⟩
    (fun _ hs => Plan.rule_of_mem_steps hplan hs) "out" hcounted hkept hrun
  refine ⟨q,plan,e,s,hq,hplan,hrun,ho,hl,(hc.resolve_left fun hsame => ?_).2.2⟩
  rw [hsame] at hgone
  cases hgone

end Execution

end GraphPattern
