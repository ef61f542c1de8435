import GraphPattern.Proofs.Execution.Result

/-!
# Which steps are taken

The modes of steps come from an analysis that goes backwards: a result is wanted if a later step
that is replayed names it, before another step writes it again, or if it is the last one. A step is
left out exactly when its result is not wanted. With more cached items fewer results are needed.
-/

namespace GraphPattern.Execution

variable {cached : OrderedMap String String} {finalName n : String} {s : PlanStep}
  {steps : List PlanStep}

/-- A replayed step names a result, before a step that is taken writes it again, or it is the
last. -/
def Wanted (finalName n : String) : List (PlanStep × StepMode) → Prop
  | [] => n = finalName
  | (s, mode) :: later =>
    mode = .execute ∧ n ∈ s.step.application.names ∨
      (mode = .skip ∨ n ≠ s.step.result.joinedName) ∧ Wanted finalName n later

/-- The results that the steps before have to provide. -/
def needed (cached : OrderedMap String String) (finalName : String) (steps : List PlanStep) :
    List String := (modes cached finalName steps).2

/-- The steps with what is done with each. -/
def scheduled (cached : OrderedMap String String) (finalName : String) (steps : List PlanStep) :
    List (PlanStep × StepMode) := steps.zip (modes cached finalName steps).1

/-- What is done with a step depends on whether its result is needed and on whether it is cached. -/
inductive Scheduled (cached : OrderedMap String String) (finalName : String) (s : PlanStep)
    (steps : List PlanStep) : StepMode → List String → Prop
  /-- The result is not needed. -/
  | skip (unneeded : s.step.result.joinedName ∉ needed cached finalName steps) :
    Scheduled cached finalName s steps .skip (needed cached finalName steps)
  /-- The result is needed and cached. -/
  | fetch {source : String} (wanted : s.step.result.joinedName ∈ needed cached finalName steps)
    (found : commonSource? cached s.step.result.names = some source) :
    Scheduled cached finalName s steps (.fetch source)
      ((needed cached finalName steps).filter (· ≠ s.step.result.joinedName))
  /-- The result is needed and has to be made. -/
  | execute (wanted : s.step.result.joinedName ∈ needed cached finalName steps)
    (missing : commonSource? cached s.step.result.names = none) :
    Scheduled cached finalName s steps .execute
      ((needed cached finalName steps).filter (· ≠ s.step.result.joinedName) ++
        s.step.application.names)

theorem exists_scheduled (cached : OrderedMap String String) (finalName : String) (s : PlanStep)
    (steps : List PlanStep) : ∃ mode names, Scheduled cached finalName s steps mode names ∧
      scheduled cached finalName (s :: steps) = (s,mode) :: scheduled cached finalName steps ∧
      needed cached finalName (s :: steps) = names := by
  rw [scheduled,needed,modes]
  simp only
  split
  · rename_i hn
    split
    · rename_i source hs
      exact ⟨_,_,.fetch hn hs,rfl,rfl⟩
    · rename_i hs
      exact ⟨_,_,.execute hn hs,rfl,rfl⟩
  · rename_i hn
    exact ⟨_,_,.skip hn,rfl,rfl⟩

/-- Every step has a mode. -/
theorem length_modes (cached : OrderedMap String String) (finalName : String) :
    ∀ steps, (modes cached finalName steps).1.length = steps.length
  | [] => rfl
  | s :: steps => by
    have ih := length_modes cached finalName steps
    rw [modes]
    simp only
    split
    · split
      · exact congrArg (· + 1) ih
      · exact congrArg (· + 1) ih
    · exact congrArg (· + 1) ih

/-- The results that are needed are the wanted ones. -/
theorem mem_needed : n ∈ needed cached finalName steps ↔
    Wanted finalName n (scheduled cached finalName steps) := by
  induction steps with
  | nil =>
    rw [needed,modes,List.mem_singleton]
    rfl
  | cons s steps ih =>
    obtain ⟨mode,names,hmode,hscheduled,hneeded⟩ := exists_scheduled cached finalName s steps
    rw [hneeded,hscheduled,Wanted,← ih]
    cases hmode with
    | skip unneeded => simp
    | fetch wanted found => simp [and_comm]
    | execute wanted missing => simp [and_comm,or_comm]

/-- A step is left out exactly when its result is not wanted. -/
theorem skip_iff {i : Nat} {mode : StepMode}
    (h : (scheduled cached finalName steps)[i]? = some (s,mode)) : mode = .skip ↔
      ¬Wanted finalName s.step.result.joinedName
        ((scheduled cached finalName steps).drop (i+1)) := by
  induction steps generalizing i with
  | nil => cases h
  | cons s' steps ih =>
    obtain ⟨mode',names,hmode,hscheduled,-⟩ := exists_scheduled cached finalName s' steps
    rw [hscheduled] at h ⊢
    cases i with
    | zero =>
      cases h
      rw [List.drop_succ_cons,List.drop_zero,← mem_needed]
      cases hmode with
      | skip unneeded => exact iff_of_true rfl unneeded
      | fetch wanted found => exact iff_of_false nofun (not_not_intro wanted)
      | execute wanted missing => exact iff_of_false nofun (not_not_intro wanted)
    | succ i => exact ih h

/-- Without cached items the steps are scheduled as if nothing were cached. -/
theorem planned_uncached {q : Query} (h : q.cachedItems .whole = .empty) (finalName : String)
    (steps : List PlanStep) : planned q finalName steps = scheduled .empty finalName steps := by
  rw [planned,h,scheduled]

theorem commonSource?_empty (names : List String) : commonSource? .empty names = none := by
  cases names with
  | nil => rfl
  | cons name names => rfl

/-- Without cached items every result is needed that is needed with some. -/
theorem needed_uncached (h : n ∈ needed cached finalName steps) :
    n ∈ needed .empty finalName steps := by
  induction steps generalizing n with
  | nil => exact h
  | cons s steps ih =>
    obtain ⟨mode,names,hmode,-,hneeded⟩ := exists_scheduled cached finalName s steps
    obtain ⟨mode',names',hmode',-,hneeded'⟩ := exists_scheduled .empty finalName s steps
    rw [hneeded] at h
    rw [hneeded']
    cases hmode' with
    | skip unneeded =>
      cases hmode with
      | skip => exact ih h
      | fetch wanted found => exact absurd (ih wanted) unneeded
      | execute wanted missing => exact absurd (ih wanted) unneeded
    | fetch wanted found =>
      rw [commonSource?_empty] at found
      cases found
    | execute wanted missing =>
      cases hmode with
      | skip unneeded =>
        refine List.mem_append_left _ (List.mem_filter.mpr ⟨ih h,decide_eq_true fun he => ?_⟩)
        exact unneeded (he ▸ h)
      | fetch wanted found =>
        obtain ⟨hn,hne⟩ := List.mem_filter.mp h
        exact List.mem_append_left _ (List.mem_filter.mpr ⟨ih hn,hne⟩)
      | execute wanted missing =>
        rcases List.mem_append.mp h with hn|hn
        · obtain ⟨hn,hne⟩ := List.mem_filter.mp hn
          exact List.mem_append_left _ (List.mem_filter.mpr ⟨ih hn,hne⟩)
        · exact List.mem_append_right _ hn

end GraphPattern.Execution
