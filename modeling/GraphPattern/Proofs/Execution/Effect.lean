import GraphPattern.Proofs.Execution.Result
import GraphPattern.Proofs.Plan
import GraphPattern.Proofs.Rule.Renumbering

/-!
# What a step comes to

What replaying a step of a plan writes is a function of the matches of some of its items, once the
data are given. The function makes alike matches of alike ones, and it does not matter where they
come from. The only step without such a function is one that writes nothing.
-/

namespace GraphPattern

open Step Workspace Matches Query

/-- A query whose reductions can be replayed as far as its constraints compare. -/
structure Query.Enactable (q : Query) : Prop where
  /-- Plans can be made of it. -/
  plannable : q.Plannable
  /-- Every marker has an upper bound. -/
  limited : ∀ {i x m}, q.item? i = some x → x.provenance = some m → m.max.isSome = true
  /-- An operand of every constraint is an item. -/
  itemed : ∀ {c C k}, q.container? c = some C → k ∈ C.constraints →
    ¬(k.left.isLiteral = true ∧ k.right.isLiteral = true)

theorem Query.Written.enactable {q : Query} (h : q.Written) (hc : q.Comparable) : q.Enactable where
  plannable := h.plannable hc
  limited hx hm := by
    rw [(h.item hx).unmarked] at hm
    cases hm
  itemed hC hk := (hc _ _ _ hC hk).item

/-- What a reduction leaves can be replayed as far. -/
theorem Rule.Reduction.enactable {q q' : Query} {rule : Rule} {a : Application} {out : ItemId}
    (h : q.Enactable) (hr : Reduction q rule a q' out) (hq : q'.Plannable) : q'.Enactable where
  plannable := hq
  limited := hr.keeps_limited h.plannable.wellFormed h.limited
  itemed hC hk := by
    obtain ⟨d,D,hD,hm⟩ := (hr.changes h.plannable.wellFormed).constraints hC hk
    exact h.itemed hD hm

namespace PlanStep

open Rule

variable {s : PlanStep} {w w' : Workspace} {data : Store}

/-- The step is a reduction of a query that can be replayed as far as its constraints compare. -/
structure Enacted (s : PlanStep) : Prop where
  /-- The query before it can be replayed so far. -/
  enactable : s.before.Enactable
  /-- The rule reduces it, and the result is known by its names. -/
  reduced : ∃ q' out y, Reduction s.before s.step.rule s.step.application q' out ∧
    q'.item? out = some y ∧ s.step.result = ⟨y.joinedName,y.names⟩

/-- Replaying the step writes what a function makes of the matches of some items. -/
structure Effect (s : PlanStep) (data : Store) (sources : List Item)
    (f : List (Rows × Rows) → Rows × Rows) : Prop where
  /-- The step names the items that have entries. -/
  named : ∀ x ∈ sources, x.isComposite = true → x.joinedName ∈ s.step.application.names
  /-- What comes out of alike matches is alike. -/
  alike : ∀ {Xs Ys}, List.Forall₂ Alike Xs Ys → Alike (f Xs) (f Ys)
  /-- Its objects have numbers. -/
  numbered : ∀ {Xs}, List.Forall₂ (fun _ X => Numbered X.1) sources Xs → Numbered (f Xs).1
  /-- This is what is written. -/
  replays : ∀ {w : Workspace}, w.Sound → w.store.objects = data.objects →
    w.store.links = data.links →
    Outcome (s.step.rule.replay s.replay) w (fun _ w' => ∃ Xs taken,
      List.Forall₂ w.Supplies sources Xs ∧
        Wrote w taken s.step.result.joinedName (f Xs).1 (f Xs).2 w') True

theorem linkRows_eq {s s' : Store} (h : s'.links = s.links) (condition : Option Condition) :
    s'.linkRows condition = s.linkRows condition := by
  rw [Store.linkRows,Store.linkRows,h]

theorem processConstraint_eq {s s' : Store} (ho : s'.objects = s.objects)
    (hl : s'.links = s.links) (k : Constraint) (operator : Comparison) (X : Rows × Rows) :
    ProcessConstraint.result s' k operator X = ProcessConstraint.result s k operator X := by
  have hrows : s'.attributeRows = s.attributeRows := by
    funext kind attr
    rw [Store.attributeRows,Store.attributeRows]
    cases kind with
    | object => rw [Store.bearers,Store.bearers,ho]
    | link => rw [Store.bearers,Store.bearers,hl]
  have hvalues : ProcessConstraint.valuesOf s' = ProcessConstraint.valuesOf s := by
    funext kind name attr rows
    cases attr with
    | none => rfl
    | some attr => simp only [ProcessConstraint.valuesOf,hrows]
  have hholding : ProcessConstraint.holding s' = ProcessConstraint.holding s := by
    funext kind operator rows left right
    cases left <;> cases right <;> simp only [ProcessConstraint.holding,hvalues]
  rw [ProcessConstraint.result,ProcessConstraint.result,hholding]

/-- The effect of a step that reads the matches of one item. -/
theorem effect_one {x : Item} {g : Rows × Rows → Rows × Rows}
    (named : x.isComposite = true → x.joinedName ∈ s.step.application.names)
    (alike : ∀ {X Y}, Alike X Y → Alike (g X) (g Y))
    (numbered : ∀ {X : Rows × Rows}, Numbered X.1 → Numbered (g X).1)
    (replays : ∀ {w : Workspace}, w.Sound → w.store.objects = data.objects →
      w.store.links = data.links → Outcome (s.step.rule.replay s.replay) w (fun _ w' => ∃ X taken,
        w.Supplies x X ∧ Wrote w taken s.step.result.joinedName (g X).1 (g X).2 w') True) :
    s.Effect data [x] fun Xs => g (Xs.getD 0 ([],[])) where
  named z hz := by
    rw [List.mem_singleton.mp hz]
    exact named
  alike h := by
    cases h with
    | nil => exact .refl _
    | cons h _ => exact alike h
  numbered h := by
    cases h with
    | cons h _ => exact numbered h
  replays hw ho hl := (replays hw ho hl).imp (fun _ w' ⟨X,taken,hX,hw'⟩ =>
    ⟨[X],taken,.cons hX .nil,hw'⟩) id

/-- The effect of a step that reads the matches of two items. -/
theorem effect_two {x z : Item} {g : Rows × Rows → Rows × Rows → Rows × Rows}
    (named : (x.isComposite = true → x.joinedName ∈ s.step.application.names) ∧
      (z.isComposite = true → z.joinedName ∈ s.step.application.names))
    (alike : ∀ {X Y Z W}, Alike X Y → Alike Z W → Alike (g X Z) (g Y W))
    (numbered : ∀ {X Z : Rows × Rows}, Numbered X.1 → Numbered Z.1 → Numbered (g X Z).1)
    (replays : ∀ {w : Workspace}, w.Sound → w.store.objects = data.objects →
      w.store.links = data.links → Outcome (s.step.rule.replay s.replay) w (fun _ w' => ∃ X Z taken,
        w.Supplies x X ∧ w.Supplies z Z ∧
          Wrote w taken s.step.result.joinedName (g X Z).1 (g X Z).2 w') True) :
    s.Effect data [x,z] fun Xs => g (Xs.getD 0 ([],[])) (Xs.getD 1 ([],[])) where
  named y hy := by
    rcases List.mem_pair.mp hy with rfl|rfl
    · exact named.1
    · exact named.2
  alike h := by
    rcases h with _|⟨h,_|⟨h',_⟩⟩
    · exact .refl _
    · exact alike h (.refl _)
    · exact alike h h'
  numbered h := by
    cases h with
    | cons h h' => cases h' with
      | cons h' _ => exact numbered h h'
  replays hw ho hl := (replays hw ho hl).imp (fun _ w' ⟨X,Z,taken,hX,hZ,hw'⟩ =>
    ⟨[X,Z],taken,.cons hX (.cons hZ .nil),hw'⟩) id

/-- A step that always fails has any effect. -/
theorem effect_failing (hf : ∀ w, ∃ e t, s.step.rule.replay s.replay w = .error e t) :
    s.Effect data [] fun _ => ([],[]) where
  named _ hn := absurd hn List.not_mem_nil
  alike _ := .refl _
  numbered _ _ hrow := absurd hrow List.not_mem_nil
  replays {w} _ _ _ := by
    obtain ⟨_,_,h⟩ := hf w
    exact .of_error h trivial

/-- A constraint that compares nothing cannot be processed. -/
theorem processConstraint_fails {r : Replay} {k : Constraint}
    (hk : r.application.constraint = some k)
    (ho : ¬∃ operator, Comparison.ofKeyword? k.operator = some operator ∧
      operator.isBinary = true) (w : Workspace) :
    ∃ e t, ProcessConstraint.replay r w = .error e t := by
  have hnone : (Comparison.ofKeyword? k.operator).filter Comparison.isBinary = none := by
    rw [Option.filter_eq_none_iff]
    exact fun operator ho' hb => ho ⟨operator,ho',hb⟩
  have hsettled : (liftM r.application.settled : WorkStep Constraint) w = .ok k w := by
    rw [Application.settled,hk]
    rfl
  refine ⟨.state (.operatorNotBinary k.operator),w,(bind_of_ok hsettled _).trans (bind_of_error ?_ _)⟩
  rw [ProcessConstraint.binaryOperator,hnone]
  rfl

/-- A step writes nothing and names its result, or it has an effect. -/
theorem exists_effect (hs : s.Enacted) (data : Store) :
    (s.step.result.joinedName ∈ s.step.application.names ∧
      ∀ w : Workspace, Outcome (s.step.rule.replay s.replay) w (fun _ w' => w' = w) True) ∨
    ∃ sources f, s.Effect data sources f := by
  obtain ⟨h,q',out,y,hr,hy,hres⟩ := hs
  generalize hrule : s.step.rule = rule at hr
  generalize happ : s.step.application = a at hr
  have hitems : s.replay.application.items = a.items := congrArg Application.items happ
  cases hr with
  | @getVertex v x edges c live kind bounds listed owner unmarked =>
    refine .inr ⟨[],fun _ => (ofObjects data x.condition x.joinedName,[]),
      fun _ hn => absurd hn List.not_mem_nil,fun _ => .refl _,fun _ => .ofObjects _ _ _,
      fun {w} hw ho hl => ?_⟩
    rw [hrule]
    refine (GetVertex.outcome_replay hw hitems live).imp (fun _ w' hw' => ?_) fun _ => trivial
    rw [ofObjects_congr ho] at hw'
    exact ⟨[],_,.nil,hw'.2⟩
  | @absorbSelfLoop _ e x y' ends c live settled edge ended loop owner bounds unmarked =>
    refine .inr ⟨_,_,effect_one (x:=x)
      (g:=AbsorbSelfLoop.result (data.linkRows y'.condition) y' ends)
      (fun _ => by rw [happ]; exact List.mem_cons_self) AbsorbSelfLoop.alike
      Numbered.absorbSelfLoop fun {w} hw ho hl => ?_⟩
    rw [hrule]
    refine (AbsorbSelfLoop.outcome_replay hw hitems live edge ended).imp
      (fun _ w' hw' => ?_) fun _ => trivial
    obtain ⟨-,X,hX,hw'⟩ := hw'
    rw [linkRows_eq hl] at hw'
    exact ⟨X,_,hX,hw'⟩
  | @collapseEdge _ e u x y' z ends edges c d able settled settled' unmarked together =>
    refine .inr ⟨_,_,effect_two (x:=x) (z:=z)
      (g:=CollapseEdge.result (data.linkRows y'.condition) x y' ends)
      (by rw [happ]; simp) CollapseEdge.alike Numbered.collapseEdge fun {w} hw ho hl => ?_⟩
    rw [hrule]
    refine (CollapseEdge.outcome_replay hw hitems able.kept able.edge able.absorbed
      able.ended).imp (fun _ w' hw' => ?_) fun _ => trivial
    obtain ⟨-,X,Z,hX,hZ,hw'⟩ := hw'
    rw [linkRows_eq hl] at hw'
    exact ⟨X,Z,_,hX,hZ,hw'⟩
  | @absorbAnnotatedVertex _ e u x y' z ends c d a marker able settled bounds annotated unmarked
      unmarked' together marking marked =>
    refine .inr ⟨_,_,effect_two (x:=x) (z:=z)
      (g:=AbsorbAnnotatedVertex.result (data.linkRows y'.condition) x y' z ends)
      (by rw [happ]; simp) AbsorbAnnotatedVertex.alike Numbered.absorbAnnotatedVertex
      fun {w} hw ho hl => ?_⟩
    rw [hrule]
    refine (AbsorbAnnotatedVertex.outcome_replay hw hitems able.kept able.edge able.absorbed
      able.ended).imp (fun _ w' hw' => ?_) fun _ => trivial
    obtain ⟨-,X,Z,hX,hZ,hw'⟩ := hw'
    rw [linkRows_eq hl] at hw'
    exact ⟨X,Z,_,hX,hZ,hw'⟩
  | @applyUpperLimit _ x marker live kind bounds marked =>
    obtain ⟨most,hmost⟩ := Option.isSome_iff_exists.mp (h.limited live marked)
    have hcomposite : x.isComposite = true := decide_eq_true kind
    refine .inr ⟨_,_,effect_one (x:=x) (g:=ApplyUpperLimit.result marker.item most)
      (fun _ => by rw [happ]; exact List.mem_cons_self) ApplyUpperLimit.alike
      Numbered.applyUpperLimit fun {w} hw ho hl => ?_⟩
    rw [hrule]
    refine (ApplyUpperLimit.outcome_replay hw hitems live marked hmost).imp
      (fun _ w' hw' => ?_) fun _ => trivial
    obtain ⟨-,X,hX,hw'⟩ := hw'
    exact ⟨X,_,by rw [Supplies,if_pos hcomposite]; exact hX,hw'⟩
  | @eliminateSubquery _ x S p C live settled owner inner parent alone =>
    refine .inl ⟨?_,fun w => .of_ok rfl rfl⟩
    rw [item?_mapItem,if_pos rfl,
      item?_flattened_inside h.plannable.wellFormed inner live owner] at hy
    rw [hres,← Option.some_inj.mp hy]
    exact List.mem_cons_self
  | @processConstraint _ x k found c C rest live settled declared bounds inside owner first carried =>
    obtain ⟨d,D,hD,hk⟩ := exists_container_of_mem declared
    have hsettled : s.replay.application.constraint = some k :=
      congrArg Application.constraint happ
    have hcomposite : x.isComposite = true := decide_eq_true settled.kind
    have hname : s.step.result.joinedName = x.joinedName := by
      rw [item?_mapContainer,live] at hy
      rw [hres,← Option.some_inj.mp hy]
    by_cases ho : ∃ operator, Comparison.ofKeyword? k.operator = some operator ∧
        operator.isBinary = true
    · obtain ⟨operator,ho,hb⟩ := ho
      refine .inr ⟨_,_,effect_one (x:=x) (g:=ProcessConstraint.result data k operator)
        (fun _ => by rw [happ]; exact List.mem_cons_self) ProcessConstraint.alike
        Numbered.processConstraint fun {w} hw hobjects hlinks => ?_⟩
      rw [hrule]
      refine (ProcessConstraint.outcome_replay hw hsettled ho hb (h.itemed hD hk)).imp
        (fun _ w' hw' => ?_) fun _ => trivial
      obtain ⟨-,X,hX,hw'⟩ := hw'
      rw [processConstraint_eq hobjects hlinks] at hw'
      rw [show s.replay.result.joinedName = x.joinedName from hname] at hX
      exact ⟨X,_,by rw [Supplies,if_pos hcomposite]; exact hX,hw'⟩
    · refine .inr ⟨_,_,effect_failing fun w => ?_⟩
      rw [hrule]
      exact processConstraint_fails hsettled ho w

end PlanStep

/-- Every step of a plan for a query that a user writes can be replayed so far. -/
theorem Plan.enacted {rules : List Rule} {config : SearchConfig} {q : Query} {plan : Plan}
    (hr : Rule.AllBuiltIn rules) (h : q.Written) (hc : q.Comparable)
    (hp : ofQuery rules config q = .ok plan) : ∀ s ∈ plan.steps, s.Enacted := by
  obtain ⟨outcome,p,hrun,hf⟩ := Search.run_ok hr config h hc
  rw [ofQuery_of_run hrun] at hp
  cases hp
  intro s hs
  obtain ⟨e,-,he⟩ := List.mem_filterMap.mp hs
  obtain ⟨x,hx,he⟩ := Option.bind_eq_some_iff.mp he
  obtain ⟨st,hst,he⟩ := Option.bind_eq_some_iff.mp he
  cases he
  obtain ⟨st',c,q',hst',-,hcarries,-⟩ := hf.step hx
  have henact : ∀ {s : StateId} {st : SearchState}, p.graph.state? s = some st →
      st.query.Enactable := fun hs => by
    refine hf.preserved (P:=Query.Enactable) (h.enactable hc) (fun {x q q'} hq hx => ?_) hs
    obtain ⟨out,hred,hq'⟩ := SearchGraph.reduction_of_carries hr hq.plannable hx
    exact hred.enactable hq hq'
  have hq := henact hst
  rw [show (ofSearch outcome p).graph.state? x.source = p.graph.state? x.source from rfl,hst'] at hst
  cases hst
  obtain ⟨out,hred,-⟩ := SearchGraph.reduction_of_carries hr hq.plannable hcarries
  obtain ⟨out',happ,hres⟩ := hcarries.applied
  rw [(hred.carriedOut hq.plannable).1] at happ
  cases happ
  obtain ⟨y,hy,-⟩ := (hred.changes hq.plannable.wellFormed).out
  rw [Reduced.result,Query.item_of_some hy] at hres
  exact ⟨hq,_,_,y,hred,hy,(Except.ok.inj hres).symm⟩

end GraphPattern
