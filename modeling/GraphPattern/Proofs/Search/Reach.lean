import GraphPattern.Proofs.Search.Faithful
import Mathlib.Algebra.BigOperators.Group.Finset.Piecewise
import Mathlib.Algebra.Order.BigOperators.Group.Finset

/-!
# Marks find every path

A walk over a search graph unfolds every state at most once, and the states together list no more
steps than there are. So the walk ends before its fuel does, and every state to which a path leads
is marked: what is not reached is reached along no path.
-/

namespace GraphPattern.SearchGraph

variable {g : SearchGraph} {s t : StateId}

/-- The number of steps that a state lists. -/
def degree (g : SearchGraph) (i : Nat) : Nat := (g.out ⟨i⟩).length

/-- The states list no more steps than there are. -/
def Tallied (g : SearchGraph) : Prop :=
  ∑ i ∈ Finset.range g.states.size, g.degree i ≤ g.steps.size

theorem out_addState (g : SearchGraph) (q : Query) (s : StateId) :
    (g.addState q).out s = g.out s := by
  rw [out,out,state?_addState]
  split
  · rename_i h
    have hnone : g.state? s = none := by
      rw [h]
      exact Array.getElem?_eq_none (Nat.le_refl _)
    rw [hnone]
    rfl
  · rfl

theorem out_addStep (g : SearchGraph) (x : SearchStep) (s : StateId) :
    (g.addStep x).out s = if s = x.source ∧ (g.state? s).isSome = true then
      g.out s ++ [⟨g.steps.size⟩] else g.out s := by
  rw [out,out,state?_addStep]
  cases g.state? s with
  | none => simp
  | some st =>
    by_cases h : s = x.source
    · simp [h]
    · simp [h]

theorem tallied_ofQuery (q : Query) : (ofQuery q).Tallied := by
  simp [Tallied,ofQuery,empty,addState,degree,out,state?,SearchState.ofQuery]

theorem Tallied.addState (h : g.Tallied) (q : Query) : (g.addState q).Tallied := by
  have hdegree : ∀ i, (g.addState q).degree i = g.degree i := fun i => by
    rw [degree,degree,out_addState]
  have hnew : g.degree g.states.size = 0 := by
    have hnone : g.state? ⟨g.states.size⟩ = none := Array.getElem?_eq_none (Nat.le_refl _)
    rw [degree,out,hnone]
    rfl
  rw [Tallied,size_addState,Finset.sum_range_succ]
  simp only [hdegree,hnew]
  exact h

theorem Tallied.addStep (h : g.Tallied) {x : SearchStep}
    (hx : x.source.index<g.states.size) : (g.addStep x).Tallied := by
  have hsome : (g.state? x.source).isSome = true := by
    rw [state?,Array.getElem?_eq_getElem hx]
    rfl
  have hdegree : ∀ i, (g.addStep x).degree i =
      g.degree i + if i = x.source.index then 1 else 0 := by
    intro i
    rw [degree,degree,out_addStep]
    by_cases hi : i = x.source.index
    · have hs : (⟨i⟩ : StateId) = x.source := congrArg StateId.mk hi
      rw [if_pos ⟨hs,by rw [hs]; exact hsome⟩,if_pos hi,List.length_append]
      rfl
    · have hs : (⟨i⟩ : StateId) ≠ x.source := fun hs => hi (congrArg StateId.index hs)
      rw [if_neg (fun h => hs h.1),if_neg hi]
      rfl
  have hsteps : (g.addStep x).steps.size = g.steps.size+1 := Array.size_push _
  rw [Tallied,size_addStep,hsteps]
  simp only [hdegree,Finset.sum_add_distrib,Finset.sum_ite_eq',Finset.mem_range,hx,if_true]
  exact Nat.add_le_add_right h 1

/-- What is still to be unfolded: the steps that unmarked states list. -/
def unfolded (g : SearchGraph) (seen : Array Bool) : Nat :=
  ∑ i ∈ (Finset.range g.states.size).filter (fun i => seen.getD i true = false), g.degree i

theorem unfolded_mark {seen : Array Bool} (hsize : seen.size = g.states.size)
    (hs : seen.getD s.index true = false) :
    g.unfolded (seen.setIfInBounds s.index true) + g.degree s.index = g.unfolded seen := by
  have hlt : s.index<seen.size := by
    by_contra hn
    rw [Array.getD_eq_getD_getElem?,Array.getElem?_eq_none (Nat.le_of_not_lt hn)] at hs
    cases hs
  have hfilter : (Finset.range g.states.size).filter
      (fun i => (seen.setIfInBounds s.index true).getD i true = false) =
      ((Finset.range g.states.size).filter fun i => seen.getD i true = false).erase s.index := by
    ext i
    rw [Finset.mem_erase,Finset.mem_filter,Finset.mem_filter]
    by_cases hi : i = s.index
    · subst hi
      simp [Array.getD_eq_getD_getElem?,hlt]
    · rw [Array.getD_eq_getD_getElem?,Array.getElem?_setIfInBounds_ne (Ne.symm hi),
        ← Array.getD_eq_getD_getElem?]
      exact ⟨fun h => ⟨hi,h⟩,fun h => h.2⟩
  have hmem : s.index ∈ (Finset.range g.states.size).filter fun i => seen.getD i true = false :=
    Finset.mem_filter.mpr ⟨Finset.mem_range.mpr (hsize ▸ hlt),hs⟩
  rw [unfolded,hfilter,unfolded,Nat.add_comm]
  exact Finset.add_sum_erase _ _ hmem

theorem length_successors_le (g : SearchGraph) (s : StateId) :
    (g.successors s).length ≤ g.degree s.index :=
  List.length_filterMap_le _ _

theorem getD_mark {seen : Array Bool} {i j : Nat} (hj : j<seen.size) :
    (seen.setIfInBounds j true).getD i false = true ↔ i = j ∨ seen.getD i false = true := by
  by_cases hij : i = j
  · subst hij
    simp [Array.getD_eq_getD_getElem?,hj]
  · rw [Array.getD_eq_getD_getElem?,Array.getElem?_setIfInBounds_ne (Ne.symm hij),
      ← Array.getD_eq_getD_getElem?]
    exact ⟨.inr,fun h => h.resolve_left hij⟩

theorem getD_true_iff {seen : Array Bool} {i : Nat} (hi : i<seen.size) :
    seen.getD i true = true ↔ seen.getD i false = true := by
  simp [Array.getD_eq_getD_getElem?,hi]

/-- The second marks cover the first ones and the pending states, and the successors of what they
add. -/
structure Covers (g : SearchGraph) (pending : List StateId) (seen marks : Array Bool) : Prop where
  /-- No mark is lost. -/
  kept : ∀ i, seen.getD i false = true → marks.getD i false = true
  /-- What was pending is marked. -/
  pending : ∀ t ∈ pending, t.index<g.states.size → marks.getD t.index false = true
  /-- What a newly marked state leads to is marked. -/
  closed : ∀ i, marks.getD i false = true → seen.getD i false = true ∨
    ∀ t ∈ g.successors ⟨i⟩, t.index<g.states.size → marks.getD t.index false = true

/-- With fuel enough for what is pending and what is still to be unfolded, a walk marks all that it
comes upon. -/
theorem markFrom_complete : ∀ (fuel : Nat) (pending : List StateId) (seen : Array Bool),
    seen.size = g.states.size → pending.length+g.unfolded seen<fuel →
      g.Covers pending seen (g.markFrom fuel pending seen)
  | 0, _, _, _, hfuel => absurd hfuel (Nat.not_lt_zero _)
  | fuel+1, [], seen, _, _ => by
    rw [markFrom]
    exact ⟨fun _ h => h,fun _ h => absurd h List.not_mem_nil,fun _ h => .inl h⟩
  | fuel+1, t :: pending, seen, hsize, hfuel => by
    rw [List.length_cons] at hfuel
    rw [markFrom]
    by_cases ht : seen.getD t.index true = true
    · rw [if_pos ht]
      have ih := markFrom_complete fuel pending seen hsize (by omega)
      refine ⟨ih.kept,fun u hu hlt => ?_,ih.closed⟩
      rcases List.mem_cons.mp hu with rfl|hu
      · exact ih.kept _ ((getD_true_iff (hsize ▸ hlt)).mp ht)
      · exact ih.pending u hu hlt
    · rw [if_neg ht]
      have hfalse := Bool.eq_false_iff.mpr ht
      have hlt : t.index<seen.size := by
        by_contra hn
        rw [Array.getD_eq_getD_getElem?,Array.getElem?_eq_none (Nat.le_of_not_lt hn)] at ht
        exact ht rfl
      have hcount := unfolded_mark hsize hfalse
      have hdegree := g.length_successors_le t
      have ih := markFrom_complete fuel (g.successors t ++ pending)
        (seen.setIfInBounds t.index true) (by rw [Array.size_setIfInBounds,hsize])
        (by rw [List.length_append]; omega)
      have hself := ih.kept t.index ((getD_mark hlt).mpr (.inl rfl))
      refine ⟨fun i hi => ih.kept i ((getD_mark hlt).mpr (.inr hi)),fun u hu hu' => ?_,fun i hi => ?_⟩
      · rcases List.mem_cons.mp hu with rfl|hu
        · exact hself
        · exact ih.pending u (List.mem_append_right _ hu) hu'
      · rcases ih.closed i hi with hseen|hclosed
        · rcases (getD_mark hlt).mp hseen with rfl|hseen
          · exact .inr fun u hu hu' => ih.pending u (List.mem_append_left _ hu) hu'
          · exact .inl hseen
        · exact .inr hclosed

/-- A state to which a path leads is reached. -/
theorem reaches_of_path (ht : g.Tallied)
    (hout : ∀ {e x}, g.step? e = some x → e ∈ g.out x.source)
    (hvalid : ∀ {e x}, g.step? e = some x → x.target.index<g.states.size)
    {es : List StepId} (hs : s.index<g.states.size) (hp : g.Path s es t) :
    g.reaches s t = true := by
  have hempty : ∀ i, (Array.replicate g.states.size false).getD i false = false := fun i => by
    rw [Array.getD_eq_getD_getElem?,Array.getElem?_replicate]
    split <;> rfl
  have hle : g.unfolded (Array.replicate g.states.size false) ≤ g.steps.size :=
    Nat.le_trans (Finset.sum_le_sum_of_subset (Finset.filter_subset _ _)) ht
  have hcover := markFrom_complete (g:=g) (g.steps.size+2) [s]
    (Array.replicate g.states.size false) Array.size_replicate
    (by rw [List.length_singleton]; omega)
  have hclosed : ∀ {u : StateId}, (g.reachMarks s).getD u.index false = true →
      ∀ v ∈ g.successors u, v.index<g.states.size →
        (g.reachMarks s).getD v.index false = true := fun {u} hu v hv hlt =>
    ((hcover.closed u.index hu).resolve_left fun h => by rw [hempty] at h; cases h) v hv hlt
  -- Along the path, one state after another is marked.
  have hall : ∀ {u v : StateId} {es : List StepId}, g.Path u es v →
      (g.reachMarks s).getD u.index false = true →
      (g.reachMarks s).getD v.index false = true := by
    intro u v es hp
    induction hp with
    | nil => exact id
    | @cons u v e es x found source rest ih =>
      refine fun hu => ih (hclosed hu _ ?_ (hvalid found))
      exact List.mem_filterMap.mpr ⟨e,source ▸ hout found,by rw [target?,found]; rfl⟩
  exact hall hp (hcover.pending s (List.mem_singleton_self s) hs)

end GraphPattern.SearchGraph
