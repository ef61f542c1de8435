import GraphPattern.Search
import Mathlib.Tactic.Common

/-!
# Search graphs and their paths

What adding a state or a step does to a search graph, and what the marks of reachable states mean:
a state is marked only if a path of steps leads there.
-/

namespace GraphPattern.SearchGraph

variable {g h k : SearchGraph} {s t u : StateId} {e : StepId}

theorem state?_addState (g : SearchGraph) (q : Query) (s : StateId) :
    (g.addState q).state? s =
      if s = ⟨g.states.size⟩ then some (.ofQuery q) else g.state? s := by
  obtain ⟨i⟩ := s
  simp only [state?,addState,Array.getElem?_push,StateId.mk.injEq]

theorem state?_addStep (g : SearchGraph) (x : SearchStep) (s : StateId) :
    (g.addStep x).state? s = (g.state? s).map fun st =>
      if s = x.source then { st with out := st.out ++ [⟨g.steps.size⟩] } else st := by
  obtain ⟨i⟩ := s
  rw [state?,addStep,Array.getElem?_modify]
  by_cases hi : i = x.source.index
  · have hs : (⟨i⟩ : StateId) = x.source := congrArg StateId.mk hi
    rw [if_pos hi.symm,state?]
    simp only [if_pos hs]
  · have hs : (⟨i⟩ : StateId) ≠ x.source := fun hs => hi (congrArg StateId.index hs)
    rw [if_neg (Ne.symm hi),state?]
    simp only [if_neg hs,Option.map_id']

theorem step?_addStep (g : SearchGraph) (x : SearchStep) (e : StepId) :
    (g.addStep x).step? e = if e = ⟨g.steps.size⟩ then some x else g.step? e := by
  obtain ⟨i⟩ := e
  simp only [step?,addStep,Array.getElem?_push,StepId.mk.injEq]

@[simp] theorem size_addState (g : SearchGraph) (q : Query) :
    (g.addState q).states.size = g.states.size+1 := Array.size_push _

@[simp] theorem size_addStep (g : SearchGraph) (x : SearchStep) :
    (g.addStep x).states.size = g.states.size := Array.size_modify

theorem state?_lt {st : SearchState} (hs : g.state? s = some st) : s.index<g.states.size := by
  rw [state?,Array.getElem?_eq_some_iff] at hs
  exact hs.1

theorem step?_lt {x : SearchStep} (he : g.step? e = some x) : e.index<g.steps.size := by
  rw [step?,Array.getElem?_eq_some_iff] at he
  exact he.1

theorem mem_bucket {key : UInt64} :
    s ∈ g.index.bucket key ↔ ∃ st, g.state? s = some st ∧ st.content.fingerprint = key :=
  g.indexed key s

/-- A state that is found by a content has that content. -/
theorem find?_some {content : Content} (hf : g.find? content = some s) :
    ∃ st, g.state? s = some st ∧ st.content = content := by
  rw [find?] at hf
  have hany := List.find?_some hf
  obtain ⟨st,hst,hc⟩ := (Option.any_eq_true _ _).mp hany
  exact ⟨st,hst,of_decide_eq_true hc⟩

/-- A content by which no state is found is that of no state: a state with that content would be
among those with its fingerprint. -/
theorem find?_none {content : Content} (hf : g.find? content = none) {st : SearchState}
    (hs : g.state? s = some st) : st.content ≠ content := by
  intro hc
  have hm : s ∈ g.index.bucket content.fingerprint := mem_bucket.mpr ⟨st,hs,by rw [hc]⟩
  refine List.find?_eq_none.mp hf s hm ?_
  rw [hs]
  exact decide_eq_true hc

/-! ## Growth -/

/-- The second graph has the states and the steps of the first one under the same numbers. -/
structure Grows (g h : SearchGraph) : Prop where
  /-- States keep their queries. -/
  state : ∀ {s st}, g.state? s = some st → ∃ st', h.state? s = some st' ∧ st'.query = st.query
  /-- Steps stay as they are. -/
  step : ∀ {e x}, g.step? e = some x → h.step? e = some x
  /-- No state is lost. -/
  size : g.states.size ≤ h.states.size

theorem Grows.refl (g : SearchGraph) : g.Grows g := ⟨fun hs => ⟨_,hs,rfl⟩,id,Nat.le_refl _⟩

theorem Grows.trans (hg : g.Grows h) (hh : h.Grows k) : g.Grows k where
  state hs := by
    obtain ⟨st,hst,hq⟩ := hg.state hs
    obtain ⟨st',hst',hq'⟩ := hh.state hst
    exact ⟨st',hst',hq'.trans hq⟩
  step he := hh.step (hg.step he)
  size := Nat.le_trans hg.size hh.size

theorem grows_addState (g : SearchGraph) (q : Query) : g.Grows (g.addState q) where
  state {s st} hs := by
    have hne : s ≠ ⟨g.states.size⟩ := fun he => by
      have hlt := state?_lt hs
      rw [he] at hlt
      exact Nat.lt_irrefl _ hlt
    exact ⟨st,by rw [state?_addState,if_neg hne,hs],rfl⟩
  step he := he
  size := by rw [size_addState]; exact Nat.le_succ _

theorem grows_addStep (g : SearchGraph) (x : SearchStep) : g.Grows (g.addStep x) where
  state {s st} hs := by
    rw [state?_addStep,hs]
    refine ⟨_,rfl,?_⟩
    split <;> rfl
  step {e y} he := by
    have hne : e ≠ ⟨g.steps.size⟩ := fun h => by
      have hlt := step?_lt he
      rw [h] at hlt
      exact Nat.lt_irrefl _ hlt
    rw [step?_addStep,if_neg hne,he]
  size := Nat.le_of_eq (size_addStep g x).symm

/-! ## Paths -/

/-- The steps of a list lead, one after another, from a state to another one. -/
inductive Path (g : SearchGraph) : StateId → List StepId → StateId → Prop
  /-- Every state is at the end of an empty path. -/
  | nil (s : StateId) : Path g s [] s
  /-- A step goes first. -/
  | cons {s t : StateId} {e : StepId} {es : List StepId} {x : SearchStep}
    (found : g.step? e = some x) (source : x.source = s) (rest : Path g x.target es t) :
    Path g s (e :: es) t

/-- No path leads from a state back to it. -/
def Acyclic (g : SearchGraph) : Prop := ∀ s es, g.Path s es s → es = []

theorem Path.append {es fs : List StepId} (hp : g.Path s es t) (hq : g.Path t fs u) :
    g.Path s (es ++ fs) u := by
  induction hp with
  | nil s => exact hq
  | cons found source _ ih => exact .cons found source (ih hq)

/-- What holds of the start of a path and of the target of every step holds of its end. -/
theorem Path.holds {P : StateId → Prop} {es : List StepId} (hp : g.Path s es t) (hs : P s)
    (hstep : ∀ {e x}, g.step? e = some x → P x.target) : P t := by
  induction hp with
  | nil s => exact hs
  | cons found _ _ ih => exact ih (hstep found)

/-- A measure that every step lowers by at least one bounds the length of every path. -/
theorem Path.length_le {es : List StepId} (hp : g.Path s es t) {f : StateId → Nat}
    (hf : ∀ {e x}, g.step? e = some x → f x.target<f x.source) : es.length+f t ≤ f s := by
  induction hp with
  | nil s => simp
  | cons found source _ ih =>
    have hlt := hf found
    rw [source] at hlt
    rw [List.length_cons]
    omega

theorem mem_successors (ht : t ∈ g.successors s) :
    ∃ e ∈ g.out s, ∃ x, g.step? e = some x ∧ x.target = t := by
  obtain ⟨e,he,hx⟩ := List.mem_filterMap.mp ht
  obtain ⟨x,hx,hxt⟩ := Option.map_eq_some_iff.mp hx
  exact ⟨e,he,x,hx,hxt⟩

/-- Marks mean paths: if paths lead to all states that are marked or pending, paths lead to all
states that are marked in the end. -/
theorem markFrom_sound (hout : ∀ {s e x}, e ∈ g.out s → g.step? e = some x → x.source = s) :
    ∀ (fuel : Nat) (pending : List StateId) (seen : Array Bool),
      (∀ t ∈ pending, ∃ es, g.Path s es t) →
      (∀ i, seen.getD i false = true → ∃ es, g.Path s es ⟨i⟩) →
      ∀ i, (g.markFrom fuel pending seen).getD i false = true → ∃ es, g.Path s es ⟨i⟩
  | 0, _, _, _, hseen => hseen
  | _+1, [], _, _, hseen => hseen
  | fuel+1, t :: pending, seen, hpending, hseen => by
    have ht := hpending t List.mem_cons_self
    have hrest : ∀ u ∈ pending, ∃ es, g.Path s es u :=
      fun u hu => hpending u (List.mem_cons_of_mem _ hu)
    rw [markFrom]
    split
    · exact markFrom_sound hout fuel pending seen hrest hseen
    · refine markFrom_sound hout fuel _ _ (fun u hu => ?_) fun i hi => ?_
      · rcases List.mem_append.mp hu with hu|hu
        · obtain ⟨e,he,x,hx,hxu⟩ := mem_successors hu
          obtain ⟨es,hes⟩ := ht
          exact ⟨es ++ [e],hes.append (.cons hx (hout he hx) (hxu ▸ .nil _))⟩
        · exact hrest u hu
      · by_cases hit : i = t.index
        · exact hit ▸ ht
        · refine hseen i ?_
          rwa [Array.getD_eq_getD_getElem?,Array.getElem?_setIfInBounds_ne (Ne.symm hit),
            ← Array.getD_eq_getD_getElem?] at hi

/-- A state is reached only along a path. -/
theorem path_of_reaches (hout : ∀ {s e x}, e ∈ g.out s → g.step? e = some x → x.source = s)
    (hr : g.reaches s t = true) : ∃ es, g.Path s es t := by
  refine markFrom_sound hout _ [s] _ (fun u hu => ?_) (fun i hi => ?_) t.index hr
  · cases List.mem_singleton.mp hu
    exact ⟨[],.nil s⟩
  · rw [Array.getD_eq_getD_getElem?,Array.getElem?_replicate] at hi
    split at hi <;> cases hi

end GraphPattern.SearchGraph
