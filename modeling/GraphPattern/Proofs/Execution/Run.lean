import GraphPattern.Proofs.Execution.Replay

/-!
# Running the steps of a plan

A run does to the names in the registry what the ledger says, step by step, and fails where the
ledger has no answer. Everything else that a run does succeeds, as long as commits do, as long as
the containers that results are fetched from are there, and as long as no container has the name
that the result is to have.
-/

namespace GraphPattern

open Step Workspace

/-- A container as the store keeps it, whose objects have numbers. -/
structure StoredContainer.Kept (c : StoredContainer) : Prop where
  /-- The table of objects has the columns of matches. -/
  objects : c.objects.columns = Column.matched
  /-- So has the table of links. -/
  links : c.links.columns = Column.matched
  /-- The objects have numbers. -/
  numbered : Numbered c.objects.rows

namespace Matches

/-- The rows of several items of the query. -/
def ofItems (names : List String) (rows : Rows) : Rows :=
  rows.filter fun row => (Table.cell row 2).asString?.any (· ∈ names)

end Matches

open Matches

namespace Store

variable {s : Store} {name : String} {c : StoredContainer}

/-- The rows of some items are copied out of a container that is there. -/
theorem outcome_itemTables (hc : s.containers.find? name = some c)
    (items : List String) : Outcome (itemTables name items) s (fun t s' =>
      s.Made t.1 c.objects.columns (ofItems items c.objects.rows) s' ∧
      s.Made t.2 c.links.columns (ofItems items c.links.rows) s' ∧ t.1 ≠ t.2) False := by
  have hcontainer : container name s = .ok c s := by
    simp only [container,bind_apply,get_apply,hc,pure_apply]
  refine .after hcontainer ?_
  refine Outcome.bind (makes_insertTable s _) fun o s₁ h₁ => ?_
  refine Outcome.bind (makes_insertTable s₁ _) fun l s₂ h₂ => ?_
  have hne : o ≠ l := fun he => Nat.not_lt_of_le h₁.bounded (he ▸ h₂.fresh)
  refine .of_ok (a:=(o,l)) rfl ⟨⟨h₁.grows.trans h₂.grows,h₁.fresh,?_,?_⟩,?_,hne⟩
  · exact Nat.le_trans h₁.bounded h₂.grows.created
  · exact h₂.grows.holds h₁.bounded h₁.holds
  · exact ⟨h₁.grows.trans h₂.grows,Nat.lt_of_le_of_lt h₁.grows.created h₂.fresh,h₂.bounded,h₂.holds⟩

theorem commit_ok (h : s.failsCommits = false) :
    commit s = .ok ⟨⟩ { s with commits := s.commits + 1 } := by
  simp only [commit,bind_apply,get_apply,h,Bool.false_eq_true,if_false,modify_apply]

end Store

namespace Execution

variable {w w' : Workspace} {label : String}

/-- A label changes nothing but the error. -/
theorem outcome_labelled {α : Type} {work : WorkStep α} {P : α → Workspace → Prop} {F : Prop}
    (h : Outcome work w P F) : Outcome (labelled label work) w P F := by
  rw [Outcome] at h ⊢
  rw [labelled,EStateM.run]
  cases hx : work w with
  | ok a w' =>
    rw [hx] at h
    exact h
  | error e w' =>
    rw [hx] at h
    exact h

/-- The result of a step is fetched from a container that is there. -/
theorem outcome_fetch (hw : w.Orderly) {container : String} {c : StoredContainer}
    (hc : w.store.containers.find? container = some c) (ho : c.objects.columns = Column.matched)
    (hl : c.links.columns = Column.matched) (name : String) (names : List String) :
    Outcome (do
        let (objects,links) ← labelled label (Store.itemTables container names)
        Workspace.replace name ⟨objects,links⟩) w
      (fun _ w' => Wrote w [] name (ofItems names c.objects.rows) (ofItems names c.links.rows) w')
      False := by
  refine Outcome.bind (outcome_labelled (outcome_lift (Store.outcome_itemTables hc names)))
    fun t w₁ hw₁ => ?_
  obtain ⟨s,⟨hto,htl,hne⟩,rfl⟩ := hw₁
  rw [ho] at hto
  rw [hl] at htl
  have hwithin : Within w [] { w with store := s } :=
    ⟨fun _ => rfl,(List.filter_eq_self.mpr fun _ _ => rfl).symm,hto.grows,fun i hi => by
      rw [show w.scratch = [] from hw.tidy] at hi
      exact absurd hi List.not_mem_nil⟩
  refine (hwithin.outcome_place hw.sound ⟨hto.bounded,hto.holds⟩ ⟨htl.bounded,htl.holds⟩ hto.fresh
    htl.fresh hne).imp (fun _ w₂ hw₂ => ?_) id
  have hwrote := hw₂.2 [] fun i hi => absurd hi List.not_mem_nil
  rw [← show w₂.scratch = w.scratch from hw₂.1] at hwrote
  exact hwrote

/-- The containers that results are fetched from are there. -/
def Provided (s : Store) (steps : List (PlanStep × StepMode)) : Prop :=
  ∀ p ∈ steps, ∀ container, p.2 = .fetch container →
    ∃ c, s.containers.find? container = some c ∧ c.Kept

/-- The names after a step is done, if it can be. -/
def stepped? (s : PlanStep) (mode : StepMode) (names : List String) : Option (List String) :=
  match mode with
  | .skip => some names
  | .fetch _ => some (insertOrdered s.step.result.joinedName names)
  | .execute => s.replayed? names

theorem ledger?_cons (s : PlanStep) (mode : StepMode) (steps : List (PlanStep × StepMode))
    (names : List String) :
    ledger? ((s,mode) :: steps) names = (stepped? s mode names).bind (ledger? steps) := by
  cases mode <;> rfl

/-- What a part of a run does to a workspace. -/
structure Proceeds (names : Option (List String)) (w w' : Workspace) : Prop where
  /-- The names are those that the ledger gives. -/
  names : names = some w'.registry.keys
  /-- The registry is in order. -/
  orderly : w'.Orderly
  /-- The data are the same. -/
  data : w.store.SameData w'.store

/-- A step is done as the ledger says. -/
theorem outcome_runStep (config : ExecutionConfig) (label : String) {s : PlanStep} {mode : StepMode}
    (hs : s.Carried) (hw : w.Orderly) (hc : w.store.failsCommits = false)
    (hp : ∀ container, mode = .fetch container →
      ∃ c, w.store.containers.find? container = some c ∧ c.Kept) :
    Outcome (runStep config label s mode) w
      (fun _ w' => Proceeds (stepped? s mode w.registry.keys) w w')
      (stepped? s mode w.registry.keys = none) := by
  cases mode with
  | skip => exact .of_ok rfl ⟨rfl,hw,.refl _⟩
  | fetch container =>
    obtain ⟨c,hfound,hk⟩ := hp container rfl
    refine (outcome_fetch hw hfound hk.objects hk.links s.step.result.joinedName s.step.result.names).imp
      (fun _ w' hw' => ?_) False.elim
    refine ⟨?_,hw.wrote hw' (hk.numbered.filter _),hw'.data⟩
    rw [hw'.keys,PlanStep.filter_untaken]
    rfl
  | execute =>
    refine outcome_labelled ((PlanStep.outcome_replay hs hw).bind fun _ w₁ h₁ => ?_)
    cases hcommit : config.commitEachStep with
    | false => exact .of_ok rfl ⟨h₁.names,h₁.orderly,h₁.data⟩
    | true =>
      have hfails : w₁.store.failsCommits = false := h₁.data.failsCommits.trans hc
      refine .of_ok (a:=⟨⟩) (t:={ w₁ with store := { w₁.store with commits := w₁.store.commits + 1 } })
        ?_ ⟨h₁.names,h₁.orderly.commits _,?_⟩
      · simp only [if_true]
        rw [lift_apply,Store.commit_ok hfails]
      · exact ⟨h₁.data.objects,h₁.data.links,h₁.data.containers,h₁.data.failsCommits⟩

/-- The steps of a plan are done as the ledger says. -/
theorem outcome_runSteps (config : ExecutionConfig) (total : Nat) :
    ∀ (steps : List (PlanStep × StepMode)) (position : Nat) (w : Workspace), w.Orderly →
      w.store.failsCommits = false → (∀ p ∈ steps, p.1.Carried) → Provided w.store steps →
      Outcome (runSteps config total position steps) w
        (fun _ w' => Proceeds (ledger? steps w.registry.keys) w w')
        (ledger? steps w.registry.keys = none)
  | [], _, w, hw, _, _, _ => .of_ok rfl ⟨rfl,hw,.refl _⟩
  | (s,mode) :: steps, position, w, hw, hc, hs, hp => by
    have hfirst := outcome_runStep config s!"{position}/{total} {s.step.text}"
      (hs (s,mode) List.mem_cons_self) hw hc (hp (s,mode) List.mem_cons_self)
    rw [ledger?_cons]
    refine (hfirst.imp (fun _ _ h => h) fun hn => by rw [hn]; rfl).bind fun _ w₁ h₁ => ?_
    rw [h₁.names,Option.bind_some]
    have hrest := outcome_runSteps config total steps (position+1) w₁ h₁.orderly
      (h₁.data.failsCommits.trans hc) (fun p hm => hs p (List.mem_cons_of_mem _ hm))
      fun p hm container he => by
        rw [h₁.data.containers]
        exact hp p (List.mem_cons_of_mem _ hm) container he
    exact hrest.imp (fun _ w₂ h₂ => ⟨h₂.names,h₂.orderly,h₁.data.trans h₂.data⟩) id

end Execution

end GraphPattern
