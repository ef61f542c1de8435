import GraphPattern.Proofs.Search.Graph
import GraphPattern.Search.Path

/-!
# Paths to a goal

How far away the nearest goal is does not depend on how distances are found. From it follows which
path is chosen: from every state the first step that brings the goal one step nearer.
-/

namespace GraphPattern

namespace SearchGraph

variable {g : SearchGraph} {s t : StateId} {d k : Nat} {es : List StepId}

/-- A goal can be reached in a number of steps. -/
inductive GoalIn (g : SearchGraph) : Nat → StateId → Prop
  /-- A goal is reached in no step. -/
  | goal {s : StateId} (h : g.isGoal s = true) : GoalIn g 0 s
  /-- A step comes first. -/
  | step {s t : StateId} {d : Nat} (h : t ∈ g.successors s) (rest : GoalIn g d t) :
    GoalIn g (d+1) s

/-- The nearest goal is that many steps away. -/
structure Away (g : SearchGraph) (d : Nat) (s : StateId) : Prop where
  /-- A goal can be reached in that many steps. -/
  reaches : g.GoalIn d s
  /-- It cannot be reached in fewer. -/
  least : ∀ k<d, ¬g.GoalIn k s

theorem Away.unique (h : g.Away d s) (h' : g.Away k s) : d = k := by
  rcases Nat.lt_trichotomy d k with hlt|he|hlt
  · exact absurd h.reaches (h'.least d hlt)
  · exact he
  · exact absurd h'.reaches (h.least k hlt)

/-- If a goal can be reached, some number of steps is the least. -/
theorem GoalIn.away (h : g.GoalIn d s) : ∃ k ≤ d, g.Away k s := by
  induction d using Nat.strongRecOn with
  | _ d ih =>
    by_cases hk : ∃ k<d, g.GoalIn k s
    · obtain ⟨k,hlt,hr⟩ := hk
      obtain ⟨j,hj,ha⟩ := ih k hlt hr
      exact ⟨j,Nat.le_trans hj (Nat.le_of_lt hlt),ha⟩
    · exact ⟨d,Nat.le_refl d,h,fun k hlt hr => hk ⟨k,hlt,hr⟩⟩

theorem away_zero : g.Away 0 s ↔ g.isGoal s = true := by
  constructor
  · rintro ⟨h,-⟩
    cases h with
    | goal h => exact h
  · exact fun h => ⟨.goal h,fun k hk => absurd hk (Nat.not_lt_zero k)⟩

/-- The nearest goal is one step farther away than from the nearest successor. -/
theorem away_succ : g.Away (d+1) s ↔ g.isGoal s = false ∧ (∃ t ∈ g.successors s, g.Away d t) ∧
    ∀ t ∈ g.successors s, ∀ k, g.Away k t → d ≤ k := by
  constructor
  · rintro ⟨hr,hl⟩
    have hleast : ∀ t ∈ g.successors s, ∀ k, g.Away k t → d ≤ k := fun t ht k hk =>
      Nat.le_of_not_lt fun hlt => hl (k+1) (Nat.succ_lt_succ hlt) (.step ht hk.reaches)
    refine ⟨?_,?_,hleast⟩
    · rw [← Bool.not_eq_true]
      exact fun hg => hl 0 (Nat.succ_pos d) (.goal hg)
    · cases hr with
      | step ht hrest =>
        obtain ⟨k,hk,ha⟩ := hrest.away
        have he := Nat.le_antisymm hk (hleast _ ht k ha)
        exact ⟨_,ht,he ▸ ha⟩
  · rintro ⟨hg,⟨t,ht,ha⟩,hleast⟩
    refine ⟨.step ht ha.reaches,fun k hk hr => ?_⟩
    cases hr with
    | goal h =>
      rw [hg] at h
      cases h
    | step hu hrest =>
      obtain ⟨j,hj,hja⟩ := hrest.away
      have hle := hleast _ hu j hja
      omega

theorem mem_successors_of {e : StepId} {x : SearchStep} (he : e ∈ g.out s)
    (hx : g.step? e = some x) : x.target ∈ g.successors s :=
  List.mem_filterMap.mpr ⟨e,he,by rw [target?,hx]; rfl⟩

/-- A path to a goal shows in how many steps a goal can be reached. -/
theorem Path.goalIn (hp : g.Path s es t)
    (hl : ∀ {e x}, g.step? e = some x → e ∈ g.out x.source) (ht : g.isGoal t = true) :
    g.GoalIn es.length s := by
  induction hp with
  | nil s => exact .goal ht
  | cons found source _ ih => exact .step (mem_successors_of (source ▸ hl found) found) (ih ht)

/-- The steps lead to a goal, and every state lists the step that leaves it. -/
inductive Walk (g : SearchGraph) : StateId → List StepId → Prop
  /-- A goal is reached. -/
  | goal {s : StateId} (h : g.isGoal s = true) : Walk g s []
  /-- A step comes first. -/
  | step {s : StateId} {e : StepId} {x : SearchStep} {es : List StepId} (listed : e ∈ g.out s)
    (found : g.step? e = some x) (rest : Walk g x.target es) : Walk g s (e :: es)

theorem Walk.goalIn (h : g.Walk s es) : g.GoalIn es.length s := by
  induction h with
  | goal h => exact .goal h
  | step listed found _ ih => exact .step (mem_successors_of listed found) ih

theorem Walk.path (h : g.Walk s es)
    (hout : ∀ {s e x}, e ∈ g.out s → g.step? e = some x → x.source = s) :
    ∃ t, g.Path s es t ∧ g.isGoal t = true := by
  induction h with
  | @goal s h => exact ⟨s,.nil s,h⟩
  | step listed found _ ih =>
    obtain ⟨t,hp,ht⟩ := ih
    exact ⟨t,.cons found (hout listed found) hp,ht⟩

/-- A path that is descended leads to a goal, whatever is known. -/
theorem walk_of_descend {known : Distances} :
    ∀ {d s es}, g.descend known d s = some es → g.Walk s es
  | 0, s, es, h => by
    rw [descend] at h
    split at h
    · rename_i hgoal
      cases h
      exact .goal hgoal
    · cases h
  | d+1, s, es, h => by
    rw [descend] at h
    split at h
    · rename_i hgoal
      cases h
      exact .goal hgoal
    · obtain ⟨e,he,h⟩ := Option.bind_eq_some_iff.mp h
      obtain ⟨u,hu,h⟩ := Option.bind_eq_some_iff.mp h
      obtain ⟨fs,hfs,h⟩ := Option.bind_eq_some_iff.mp h
      cases h
      obtain ⟨x,hx,rfl⟩ := Option.map_eq_some_iff.mp hu
      exact .step (List.mem_of_find?_eq_some he) hx (walk_of_descend hfs)

/-- A path that is found leads to a goal, whatever the graph. -/
theorem walk_of_shortestPath? (h : g.shortestPath? s = some es) : g.Walk s es := by
  rw [shortestPath?,pathAlong?] at h
  split at h
  · exact walk_of_descend h
  · cases h

theorem path_of_shortestPath? (hout : ∀ {s e x}, e ∈ g.out s → g.step? e = some x → x.source = s)
    (h : g.shortestPath? s = some es) : ∃ t, g.Path s es t ∧ g.isGoal t = true :=
  (walk_of_shortestPath? h).path hout

theorem GoalIn.exists_goal (h : g.GoalIn d s) : ∃ t, g.isGoal t = true := by
  induction h with
  | goal h => exact ⟨_,h⟩
  | step _ _ ih => exact ih

/-! ## The chosen path -/

/-- The steps lead to a goal, and each of them is the first one that brings the goal one step
nearer. -/
inductive Chosen (g : SearchGraph) : StateId → List StepId → Prop
  /-- A goal is reached. -/
  | goal {s : StateId} (h : g.isGoal s = true) : Chosen g s []
  /-- A step comes first. -/
  | step {s : StateId} {e : StepId} {x : SearchStep} {es before after : List StepId}
    (away : g.Away (es.length+1) s) (out : g.out s = before ++ e :: after)
    (found : g.step? e = some x)
    (passed : ∀ f ∈ before, ∀ y, g.step? f = some y → ¬g.Away es.length y.target)
    (rest : Chosen g x.target es) : Chosen g s (e :: es)

theorem Chosen.away (h : g.Chosen s es) : g.Away es.length s := by
  cases h with
  | goal h => exact away_zero.mpr h
  | step away => exact away

theorem Chosen.walk (h : g.Chosen s es) : g.Walk s es := by
  induction h with
  | goal h => exact .goal h
  | step away out found passed rest ih =>
    exact .step (out ▸ List.mem_append_right _ List.mem_cons_self) found ih

/-- Only one path is chosen. -/
theorem Chosen.unique {fs : List StepId} (h : g.Chosen s es) (h' : g.Chosen s fs) : es = fs := by
  have hlen := h.away.unique h'.away
  induction h generalizing fs with
  | goal h =>
    cases h' with
    | goal => rfl
    | step => cases hlen
  | @step s e x es before after away out found passed rest ih =>
    cases h' with
    | goal => cases hlen
    | @step _ f y fs before' after' away' out' found' passed' rest' =>
      have hlen' : es.length = fs.length := Nat.succ.inj hlen
      -- Neither of the two first steps stands before the other one.
      have hsame : e = f := by
        rcases List.append_eq_append_iff.mp (out.symm.trans out') with ⟨m,hm,hm'⟩|⟨m,hm,hm'⟩
        · cases m with
          | nil => exact (List.cons.inj hm').1
          | cons e' m =>
            obtain ⟨rfl,-⟩ := List.cons.inj hm'
            refine absurd (hlen' ▸ rest.away) (passed' e ?_ x found)
            rw [hm]
            exact List.mem_append_right _ List.mem_cons_self
        · cases m with
          | nil => exact (List.cons.inj hm').1.symm
          | cons f' m =>
            obtain ⟨rfl,-⟩ := List.cons.inj hm'
            refine absurd (hlen' ▸ rest'.away) (passed f ?_ y found')
            rw [hm]
            exact List.mem_append_right _ List.mem_cons_self
      subst hsame
      rw [found] at found'
      cases found'
      rw [ih rest' hlen']

end SearchGraph

end GraphPattern
