import GraphPattern.Proofs.Search.Path
import Mathlib.Data.Finset.Card
import Mathlib.Data.Finset.Range
import Mathlib.Logic.Relation

/-!
# Distances that are found depth first

A visit of a state notes a distance for it and for states behind it, and leaves everything else as
it was. It does not use up its depth, because every level below has fewer states that were not
visited. What it notes is right unless it comes back to a state that is in progress; that does not
matter if from such a state no goal can be reached.
-/

namespace GraphPattern

open Relation

namespace Distances

variable {known known' known'' : Distances} {s t : StateId} {d : Distance}
  {visit visit' : StateId → Distances → Distance × Distances} {best : Option Nat}
  {ts : List StateId}

@[simp] theorem size_note : (known.note s d).size = known.size := Array.size_setIfInBounds

theorem of_note_self (h : s.index<known.size) : (known.note s d).of s = d := by
  rw [of,note,Array.getD_eq_getD_getElem?,Array.getElem?_setIfInBounds_self_of_lt h]
  rfl

theorem of_note_ne (h : t ≠ s) : (known.note s d).of t = known.of t := by
  have hi : s.index ≠ t.index := fun he => h (congrArg StateId.mk he.symm)
  rw [of,of,note,Array.getD_eq_getD_getElem?,Array.getElem?_setIfInBounds_ne hi,
    Array.getD_eq_getD_getElem?]

/-- Only a state can be unvisited. -/
theorem lt_of_unvisited (h : known.of s = .unvisited) : s.index<known.size := by
  by_contra hn
  rw [of,Array.getD_eq_getD_getElem?,Array.getElem?_eq_none (Nat.le_of_not_lt hn)] at h
  cases h

/-- What is known after some visits: nothing has been forgotten, and nothing else is in progress. -/
structure Advances (known known' : Distances) : Prop where
  /-- There are as many states. -/
  size : known'.size = known.size
  /-- What is known stays. -/
  kept : ∀ {s}, known.of s ≠ .unvisited → known'.of s = known.of s
  /-- What is in progress was so before. -/
  progress : ∀ {s}, known'.of s = .inProgress → known.of s = .inProgress

theorem Advances.refl (known : Distances) : known.Advances known := ⟨rfl,fun _ => rfl,id⟩

theorem Advances.trans (h : known.Advances known') (h' : known'.Advances known'') :
    known.Advances known'' where
  size := h'.size.trans h.size
  kept hs := (h'.kept (by rwa [h.kept hs])).trans (h.kept hs)
  progress hs := h.progress (h'.progress hs)

theorem Advances.visited (h : known.Advances known') (hs : known.of s ≠ .unvisited) :
    known'.of s ≠ .unvisited := by
  rwa [h.kept hs]

/-- A distance is noted for a state that was not visited before. -/
theorem advances_note (hs : known.of s = .unvisited) (hd : d ≠ .inProgress)
    (hsize : known'.size = known.size)
    (hkept : ∀ {t}, t ≠ s → known.of t ≠ .unvisited → known'.of t = known.of t)
    (hprogress : ∀ {t}, t ≠ s → known'.of t = .inProgress → known.of t = .inProgress) :
    known.Advances (known'.note s d) := by
  refine ⟨by rw [size_note,hsize],fun {t} ht => ?_,fun {t} ht => ?_⟩
  · have hne : t ≠ s := fun he => ht (he ▸ hs)
    rw [of_note_ne hne,hkept hne ht]
  · by_cases hne : t = s
    · rw [hne,of_note_self (hsize ▸ lt_of_unvisited hs)] at ht
      exact absurd ht hd
    · rw [of_note_ne hne] at ht
      exact hprogress hne ht

/-- The distance takes the place of the mark that the state is in progress. -/
theorem Advances.note (h : (known.note s .inProgress).Advances known')
    (hs : known.of s = .unvisited) (hd : d ≠ .inProgress) :
    known.Advances (known'.note s d) := by
  have hmark : ∀ {t}, t ≠ s → (known.note s .inProgress).of t = known.of t := of_note_ne
  refine advances_note hs hd (h.size.trans size_note) (fun {t} hne ht => ?_) fun {t} hne ht => ?_
  · rw [h.kept (by rwa [hmark hne]),hmark hne]
  · rw [← hmark hne]
    exact h.progress ht

/-- Several visits advance if each of them does. -/
theorem advances_nearest (h : ∀ t (known : Distances), known.Advances (visit t known).2) :
    ∀ (ts : List StateId) (best : Option Nat) (known : Distances),
      known.Advances (nearest visit ts best known).2
  | [], _, known => .refl known
  | t :: ts, best, known =>
    (h t known).trans (advances_nearest h ts ((visit t known).1.nearer best) (visit t known).2)

theorem nearest_congr (h : ∀ t known', known.Advances known' → visit t known' = visit' t known')
    (hv : ∀ t (known : Distances), known.Advances (visit t known).2) :
    nearest visit ts best known = nearest visit' ts best known := by
  induction ts generalizing best known with
  | nil => rfl
  | cons t ts ih =>
    rw [nearest,nearest,← h t known (.refl known)]
    exact ih fun u known' hk => h u known' ((hv t known).trans hk)

/-! ## States that have not been visited -/

/-- The numbers of the states that have not been visited. -/
def unseen (known : Distances) : Finset Nat :=
  (Finset.range known.size).filter fun i => known.of ⟨i⟩ = .unvisited

theorem mem_unseen : s.index ∈ known.unseen ↔ known.of s = .unvisited := by
  rw [unseen,Finset.mem_filter,Finset.mem_range]
  exact ⟨And.right,fun h => ⟨lt_of_unvisited h,h⟩⟩

theorem Advances.card_unseen (h : known.Advances known') :
    known'.unseen.card ≤ known.unseen.card := by
  refine Finset.card_le_card fun i hi => ?_
  refine mem_unseen (s:=⟨i⟩).mpr ?_
  by_contra hn
  exact h.visited hn (mem_unseen (s:=⟨i⟩).mp hi)

theorem card_unseen_le (known : Distances) : known.unseen.card ≤ known.size :=
  (Finset.card_filter_le _ _).trans (Nat.le_of_eq (Finset.card_range _))

theorem card_unseen_note (hs : known.of s = .unvisited) :
    (known.note s .inProgress).unseen.card<known.unseen.card := by
  refine Finset.card_lt_card (Finset.ssubset_iff_subset_ne.mpr ⟨fun i hi => ?_,fun he => ?_⟩)
  · have hi := mem_unseen (s:=⟨i⟩).mp hi
    by_cases hne : (⟨i⟩ : StateId) = s
    · rw [hne,of_note_self (lt_of_unvisited hs)] at hi
      cases hi
    · rw [of_note_ne hne] at hi
      exact mem_unseen.mpr hi
  · have hm := he ▸ mem_unseen.mpr hs
    rw [mem_unseen,of_note_self (lt_of_unvisited hs)] at hm
    cases hm

end Distances

namespace SearchGraph

open Distances

variable {g : SearchGraph} {known : Distances} {s t : StateId} {d k depth : Nat}

theorem ofNearest_ne (best : Option Nat) : Distance.ofNearest best ≠ .inProgress := by
  cases best <;> nofun

/-- A visit of an unvisited state that is no goal. -/
theorem visit_unvisited (hs : known.of s = .unvisited) (hg : g.isGoal s = false) :
    g.visit (depth+1) s known =
      let r := nearest (g.visit depth) (g.successors s) none (known.note s .inProgress)
      (.ofNearest r.1,r.2.note s (.ofNearest r.1)) := by
  rw [visit,hs]
  simp only [hg,Bool.false_eq_true,if_false]

theorem visit_goal (hs : known.of s = .unvisited) (hg : g.isGoal s = true) :
    g.visit (depth+1) s known = (.steps 0,known.note s (.steps 0)) := by
  rw [visit,hs]
  simp only [hg,if_true]

theorem visit_visited (hs : known.of s ≠ .unvisited) : g.visit (depth+1) s known =
    (if known.of s = .inProgress then .unreachable else known.of s,known) := by
  rw [visit]
  cases h : known.of s with
  | unvisited => exact absurd h hs
  | inProgress => rfl
  | unreachable => rfl
  | steps d => rfl

/-- A visit changes nothing that is known. -/
theorem advances_visit (g : SearchGraph) : ∀ (depth : Nat) (s : StateId) (known : Distances),
    known.Advances (g.visit depth s known).2
  | 0, _, known => .refl known
  | depth+1, s, known => by
    by_cases hs : known.of s = .unvisited
    · cases hg : g.isGoal s with
      | true =>
        rw [visit_goal hs hg]
        exact advances_note hs (fun h => by cases h) rfl (fun _ _ => rfl) fun _ => id
      | false =>
        rw [visit_unvisited hs hg]
        exact (advances_nearest (advances_visit g depth) _ _ _).note hs (ofNearest_ne _)
    · rw [visit_visited hs]
      exact .refl known

/-- It does not matter how deep a visit may go, if there are fewer states that were not visited. -/
theorem visit_depth (g : SearchGraph) : ∀ {depth depth' : Nat} {s : StateId} {known : Distances},
    known.unseen.card<depth → known.unseen.card<depth' →
      g.visit depth s known = g.visit depth' s known
  | 0, _, _, _, h, _ => absurd h (Nat.not_lt_zero _)
  | _, 0, _, _, _, h => absurd h (Nat.not_lt_zero _)
  | depth+1, depth'+1, s, known, h, h' => by
    by_cases hs : known.of s = .unvisited
    · cases hg : g.isGoal s with
      | true => rw [visit_goal hs hg,visit_goal hs hg]
      | false =>
        rw [visit_unvisited hs hg,visit_unvisited hs hg]
        have hfewer := card_unseen_note hs
        rw [nearest_congr (fun t known' hk => ?_) (advances_visit g depth)]
        have hle := hk.card_unseen
        exact visit_depth g (by omega) (by omega)
    · rw [visit_visited hs,visit_visited hs]

/-- A visit that may go deeper than there are states finds nothing else. -/
theorem visit_eq_explore (hsize : known.size = g.states.size) (hd : g.states.size<depth) :
    (g.visit depth s known).2 = g.explore known s := by
  have hle := card_unseen_le known
  have hfew : known.unseen.card<g.states.size+1 := by omega
  rw [explore,visit_depth g (by omega) hfew]

/-! ## What is found is right -/

/-- A distance is right. -/
def Measures (g : SearchGraph) (s : StateId) : Distance → Prop
  | .steps d => g.Away d s
  | .unreachable => ∀ d, ¬g.GoalIn d s
  | _ => False

/-- A number is the smallest one of steps to a goal by way of one of some states. -/
def Via (g : SearchGraph) (ts : List StateId) : Option Nat → Prop
  | some n => (∃ t ∈ ts, ∃ d, g.Away d t ∧ d+1 = n) ∧ ∀ t ∈ ts, ∀ d, g.Away d t → n ≤ d+1
  | none => ∀ t ∈ ts, ∀ d, ¬g.GoalIn d t

theorem Measures.ne {d : Distance} (h : g.Measures s d) : d ≠ .unvisited ∧ d ≠ .inProgress := by
  cases d with
  | unvisited => exact h.elim
  | inProgress => exact h.elim
  | unreachable => exact ⟨nofun,nofun⟩
  | steps d => exact ⟨nofun,nofun⟩

/-- One more state is taken into account. -/
theorem Via.nearer {ts : List StateId} {best : Option Nat} {d : Distance} (h : g.Via ts best)
    (hd : g.Measures t d) : g.Via (ts ++ [t]) (d.nearer best) := by
  have hmem : ∀ {u}, u ∈ ts ++ [t] ↔ u ∈ ts ∨ u = t := by simp
  cases d with
  | unvisited => exact hd.elim
  | inProgress => exact hd.elim
  | unreachable =>
    cases best with
    | none =>
      intro u hu k hk
      rcases hmem.mp hu with hu|rfl
      · exact h u hu k hk
      · exact hd k hk
    | some n =>
      obtain ⟨⟨u,hu,hn⟩,hleast⟩ := h
      refine ⟨⟨u,hmem.mpr (.inl hu),hn⟩,fun v hv k hk => ?_⟩
      rcases hmem.mp hv with hv|rfl
      · exact hleast v hv k hk
      · exact absurd hk.reaches (hd k)
  | steps d =>
    have hself : ∀ {k}, g.Away k t → k = d := fun hk => hk.unique hd
    have hnew : ∃ u ∈ ts ++ [t], ∃ k, g.Away k u ∧ k+1 = d+1 := ⟨t,hmem.mpr (.inr rfl),d,hd,rfl⟩
    cases best with
    | none =>
      refine ⟨hnew,fun u hu k hk => ?_⟩
      rcases hmem.mp hu with hu|rfl
      · exact absurd hk.reaches (h u hu k)
      · rw [hself hk]
    | some n =>
      obtain ⟨⟨u,hu,hn⟩,hleast⟩ := h
      by_cases hlt : d+1<n
      · rw [Distance.nearer,Option.all_some,if_pos (decide_eq_true hlt)]
        refine ⟨hnew,fun v hv k hk => ?_⟩
        rcases hmem.mp hv with hv|rfl
        · exact (Nat.le_of_lt hlt).trans (hleast v hv k hk)
        · rw [hself hk]
      · rw [Distance.nearer,Option.all_some,if_neg (by simpa using hlt)]
        refine ⟨⟨u,hmem.mpr (.inl hu),hn⟩,fun v hv k hk => ?_⟩
        rcases hmem.mp hv with hv|rfl
        · exact hleast v hv k hk
        · rw [hself hk]
          omega

/-- The distance of a state that is no goal comes from those of the states behind it. -/
theorem Via.measures {best : Option Nat} (h : g.Via (g.successors s) best)
    (hg : g.isGoal s = false) : g.Measures s (.ofNearest best) := by
  cases best with
  | none =>
    intro d hd
    cases hd with
    | goal hgoal =>
      rw [hg] at hgoal
      cases hgoal
    | step ht hrest => exact h _ ht _ hrest
  | some n =>
    obtain ⟨⟨t,ht,d,hd,rfl⟩,hleast⟩ := h
    exact away_succ.mpr ⟨hg,⟨t,ht,hd⟩,fun u hu k hk => Nat.le_of_succ_le_succ (hleast u hu k hk)⟩

/-- What is known is right, and the states behind those of which something is known were visited. -/
structure Accurate (g : SearchGraph) (known : Distances) : Prop where
  /-- What is known is right. -/
  measured : ∀ {s}, known.of s ≠ .unvisited → known.of s ≠ .inProgress → g.Measures s (known.of s)
  /-- The states behind it were visited. -/
  behind : ∀ {s}, known.of s ≠ .unvisited → known.of s ≠ .inProgress → g.isGoal s = false →
    ∀ t ∈ g.successors s, known.of t ≠ .unvisited

/-- A distance that is right may be noted, and so may that a state is in progress. -/
theorem Accurate.note {d : Distance} (h : g.Accurate known) (hlt : s.index<known.size)
    (hd : d ≠ .unvisited) (hm : d ≠ .inProgress → g.Measures s d)
    (hb : d ≠ .inProgress → g.isGoal s = false → ∀ t ∈ g.successors s, known.of t ≠ .unvisited) :
    g.Accurate (known.note s d) := by
  have hvisited : ∀ {t}, known.of t ≠ .unvisited → (known.note s d).of t ≠ .unvisited := by
    intro t ht
    by_cases hne : t = s
    · rwa [hne,of_note_self hlt]
    · rwa [of_note_ne hne]
  constructor
  · intro t ht ht'
    by_cases hne : t = s
    · rw [hne,of_note_self hlt] at ht' ⊢
      exact hm ht'
    · rw [of_note_ne hne] at ht ht' ⊢
      exact h.measured ht ht'
  · intro t ht ht' hg u hu
    refine hvisited ?_
    by_cases hne : t = s
    · rw [hne,of_note_self hlt] at ht'
      exact hb ht' (hne ▸ hg) u (hne ▸ hu)
    · rw [of_note_ne hne] at ht ht'
      exact h.behind ht ht' hg u hu

/-- One visit after another finds the smallest number of steps, if each of them is right. -/
theorem nearest_accurate {visit : StateId → Distances → Distance × Distances}
    {seen ts : List StateId} {best : Option Nat}
    (hv : ∀ t (known : Distances), known.Advances (visit t known).2)
    (hvisit : ∀ t ∈ ts, ∀ known', known.Advances known' → g.Accurate known' →
      g.Measures t (visit t known').1 ∧ g.Accurate (visit t known').2 ∧
        (visit t known').2.of t ≠ .unvisited)
    (hbest : g.Via seen best) (h : g.Accurate known) :
    g.Via (seen ++ ts) (nearest visit ts best known).1 ∧
      g.Accurate (nearest visit ts best known).2 ∧
        ∀ t ∈ ts, (nearest visit ts best known).2.of t ≠ .unvisited := by
  induction ts generalizing seen best known with
  | nil => exact ⟨by rwa [List.append_nil],h,fun t ht => absurd ht List.not_mem_nil⟩
  | cons t ts ih =>
    obtain ⟨hm,he,ht⟩ := hvisit t List.mem_cons_self known (.refl known) h
    have hrest := ih (fun u hu known' hk => hvisit u (List.mem_cons_of_mem t hu) known'
      ((hv t known).trans hk)) (hbest.nearer hm) he
    rw [List.append_assoc] at hrest
    refine ⟨hrest.1,hrest.2.1,fun u hu => ?_⟩
    rcases List.mem_cons.mp hu with rfl|hu
    · exact (advances_nearest hv ts _ _).visited ht
    · exact hrest.2.2 u hu

/-- From a state that steps lead back to, no goal can be reached. -/
def Straight (g : SearchGraph) : Prop :=
  ∀ {s d}, TransGen (fun s t => t ∈ g.successors s) s s → ¬g.GoalIn d s

theorem Acyclic.straight (h : g.Acyclic)
    (hout : ∀ {s e x}, e ∈ g.out s → g.step? e = some x → x.source = s) : g.Straight := by
  have hpath : ∀ {s t}, TransGen (fun s t => t ∈ g.successors s) s t →
      ∃ es ≠ [], g.Path s es t := by
    intro s t hst
    induction hst using TransGen.head_induction_on with
    | single ht =>
      obtain ⟨e,he,x,hx,rfl⟩ := mem_successors ht
      exact ⟨[e],nofun,.cons hx (hout he hx) (.nil _)⟩
    | head ht _ ih =>
      obtain ⟨e,he,x,hx,rfl⟩ := mem_successors ht
      obtain ⟨es,-,hes⟩ := ih
      exact ⟨e :: es,nofun,.cons hx (hout he hx) hes⟩
  intro s d hback _
  obtain ⟨es,hne,hes⟩ := hpath hback
  exact hne (h s es hes)

/-- A visit finds the right distance. The induction is on the depth; what is in progress are the
states from which steps lead to the one that is visited. -/
theorem visit_accurate (hg : g.Straight) : ∀ {depth : Nat} {s : StateId} {known : Distances},
    known.unseen.card<depth → g.Accurate known →
    (∀ {u}, known.of u = .inProgress → TransGen (fun s t => t ∈ g.successors s) u s) →
      g.Measures s (g.visit depth s known).1 ∧ g.Accurate (g.visit depth s known).2 ∧
        (g.visit depth s known).2.of s ≠ .unvisited
  | 0, _, _, hdepth, _, _ => absurd hdepth (Nat.not_lt_zero _)
  | depth+1, s, known, hdepth, h, hback => by
    by_cases hs : known.of s = .unvisited
    · have hlt := lt_of_unvisited hs
      cases hgoal : g.isGoal s with
      | true =>
        have hzero : g.Measures s (.steps 0) := away_zero.mpr hgoal
        rw [visit_goal hs hgoal]
        refine ⟨hzero,h.note hlt nofun (fun _ => hzero) fun _ hn => ?_,?_⟩
        · rw [hgoal] at hn
          cases hn
        · rw [of_note_self hlt]
          nofun
      | false =>
        have hmark : g.Accurate (known.note s .inProgress) :=
          h.note hlt nofun (fun hn => absurd rfl hn) fun hn => absurd rfl hn
        have hfewer := card_unseen_note hs
        -- The state itself is in progress now, and what was in progress before leads to it.
        have hbelow : ∀ t ∈ g.successors s, ∀ known', (known.note s .inProgress).Advances known' →
            g.Accurate known' → g.Measures t (g.visit depth t known').1 ∧
              g.Accurate (g.visit depth t known').2 ∧
                (g.visit depth t known').2.of t ≠ .unvisited := by
          intro t ht known' hk he
          have hless := hk.card_unseen
          refine visit_accurate hg (by omega) he fun {u} hu => ?_
          have hu := hk.progress hu
          by_cases hne : u = s
          · exact .single (hne ▸ ht)
          · rw [of_note_ne hne] at hu
            exact (hback hu).tail ht
        have hnone : g.Via [] none := fun _ ht => absurd ht List.not_mem_nil
        obtain ⟨hvia,he,hbehind⟩ := nearest_accurate (advances_visit g depth) hbelow hnone hmark
        have hm := hvia.measures hgoal
        have hlt' : s.index<(nearest (g.visit depth) (g.successors s) none
            (known.note s .inProgress)).2.size := by
          rwa [(advances_nearest (advances_visit g depth) _ _ _).size,size_note]
        rw [visit_unvisited hs hgoal]
        refine ⟨hm,he.note hlt' hm.ne.1 (fun _ => hm) fun _ _ => hbehind,?_⟩
        rw [of_note_self hlt']
        exact hm.ne.1
    · rw [visit_visited hs]
      refine ⟨?_,h,hs⟩
      by_cases hp : known.of s = .inProgress
      · rw [if_pos hp]
        exact fun d => hg (hback hp)
      · rw [if_neg hp]
        exact h.measured hs hp

/-! ## The path along distances -/

/-- What is known between two searches for a path: it is right, and nothing is in progress. -/
structure Surveyed (g : SearchGraph) (known : Distances) : Prop extends Accurate g known where
  /-- Nothing is in progress. -/
  idle : ∀ s, known.of s ≠ .inProgress
  /-- There is a place for every state. -/
  size : known.size = g.states.size

theorem state?_none (hs : ¬s.index<g.states.size) : g.state? s = none :=
  Array.getElem?_eq_none (Nat.le_of_not_lt hs)

theorem of_unknown (g : SearchGraph) (s : StateId) :
    g.unknown.of s = if s.index<g.states.size then .unvisited else .unreachable := by
  rw [unknown,of,Array.getD_eq_getD_getElem?,Array.getElem?_replicate]
  split <;> rfl

/-- At first nothing is known, except that no goal can be reached from what is not a state. -/
theorem surveyed_unknown (g : SearchGraph) : g.Surveyed g.unknown where
  measured {s} hs _ := by
    rw [of_unknown] at hs ⊢
    split at hs
    · exact absurd rfl hs
    · rename_i hlt
      rw [if_neg hlt]
      intro d hd
      cases hd with
      | goal h =>
        rw [isGoal,state?_none hlt] at h
        cases h
      | step ht =>
        rw [successors,out,state?_none hlt] at ht
        exact List.not_mem_nil ht
  behind {s} hs _ hg t ht := by
    rw [of_unknown] at hs
    split at hs
    · exact absurd rfl hs
    · rename_i hlt
      rw [successors,out,state?_none hlt] at ht
      exact absurd ht List.not_mem_nil
  idle s := by
    rw [of_unknown]
    split <;> nofun
  size := Array.size_replicate

/-- After a state has been explored its distance is known. -/
theorem Surveyed.explore (h : g.Surveyed known) (hg : g.Straight) (s : StateId) :
    g.Surveyed (g.explore known s) ∧ (g.explore known s).of s ≠ .unvisited ∧
      known.Advances (g.explore known s) := by
  have hadv := advances_visit g (g.states.size+1) s known
  have hfew : known.unseen.card<g.states.size+1 :=
    Nat.lt_succ_of_le (h.size ▸ card_unseen_le known)
  obtain ⟨-,he,hs⟩ := visit_accurate hg hfew h.toAccurate fun {u} hu => absurd hu (h.idle u)
  exact ⟨⟨he,fun u hu => h.idle u (hadv.progress hu),hadv.size.trans h.size⟩,hs,hadv⟩

theorem Surveyed.away (h : g.Surveyed known) (hs : known.of s = .steps d) : g.Away d s := by
  have hm := h.measured (by simp [hs]) (h.idle s)
  rwa [hs] at hm

/-- Behind a state whose distance is known every distance is known. -/
theorem Surveyed.steps_iff (h : g.Surveyed known) (hs : known.of s = .steps k)
    (hgoal : g.isGoal s = false) (ht : t ∈ g.successors s) :
    known.of t = .steps d ↔ g.Away d t := by
  refine ⟨h.away,fun ha => ?_⟩
  have hvisited := h.behind (by simp [hs]) (h.idle s) hgoal t ht
  have hm := h.measured hvisited (h.idle t)
  cases hknown : known.of t with
  | unvisited => exact absurd hknown hvisited
  | inProgress => exact absurd hknown (h.idle t)
  | unreachable =>
    rw [hknown] at hm
    exact absurd ha.reaches (hm d)
  | steps k =>
    rw [hknown] at hm
    rw [hm.unique ha]

theorem any_target? {e : StepId} {x : SearchStep} (hx : g.step? e = some x) (p : StateId → Bool) :
    (g.target? e).any p = p x.target := by
  rw [target?,hx,Option.map_some,Option.any_some]

/-- Along distances that are known the chosen path is descended. -/
theorem Surveyed.descend (h : g.Surveyed known) (hs : known.of s = .steps d) :
    ∃ es, g.descend known d s = some es ∧ g.Chosen s es ∧ es.length = d := by
  induction d generalizing s with
  | zero =>
    have hgoal := away_zero.mp (h.away hs)
    exact ⟨[],by rw [SearchGraph.descend,if_pos hgoal],.goal hgoal,rfl⟩
  | succ d ih =>
    obtain ⟨hgoal,⟨t,ht,hta⟩,-⟩ := away_succ.mp (h.away hs)
    obtain ⟨e,he,x,hx,rfl⟩ := mem_successors ht
    have hfound : ((g.out s).find? fun e =>
        (g.target? e).any fun t => known.of t = .steps d).isSome = true := by
      rw [List.find?_isSome]
      refine ⟨e,he,?_⟩
      rw [any_target? hx]
      exact decide_eq_true ((h.steps_iff hs hgoal ht).mpr hta)
    obtain ⟨f,hf⟩ := Option.isSome_iff_exists.mp hfound
    obtain ⟨hfl,before,after,hout,hpassed⟩ := List.find?_eq_some_iff_append.mp hf
    cases hy : g.step? f with
    | none =>
      rw [target?,hy] at hfl
      cases hfl
    | some y =>
      rw [any_target? hy,decide_eq_true_eq] at hfl
      obtain ⟨es,hes,hchosen,rfl⟩ := ih hfl
      refine ⟨f :: es,?_,.step (h.away hs) hout hy (fun e he x hx ha => ?_) hchosen,rfl⟩
      · have htarget : g.target? f = some y.target := by rw [target?,hy]; rfl
        rw [SearchGraph.descend,if_neg (by simp [hgoal])]
        simp only [hf,htarget,hes,Option.bind_eq_bind,Option.bind_some]
        rfl
      · have hbehind := mem_successors_of (hout ▸ List.mem_append_left _ he) hx
        have hno := hpassed e he
        rw [any_target? hx,(h.steps_iff hs hgoal hbehind).mpr ha] at hno
        simp at hno

/-- The path along distances that are known is the chosen one. -/
theorem Surveyed.pathAlong? (h : g.Surveyed known) (hs : known.of s ≠ .unvisited)
    {es : List StepId} : g.pathAlong? known s = some es ↔ g.Chosen s es := by
  have hm := h.measured hs (h.idle s)
  rw [SearchGraph.pathAlong?]
  cases hknown : known.of s with
  | unvisited => exact absurd hknown hs
  | inProgress => exact absurd hknown (h.idle s)
  | unreachable =>
    rw [hknown] at hm
    exact ⟨fun hn => (by cases hn),fun hc => absurd hc.away.reaches (hm _)⟩
  | steps d =>
    obtain ⟨fs,hfs,hc,-⟩ := h.descend hknown
    simp only [hfs,Option.some.injEq]
    exact ⟨fun he => he ▸ hc,hc.unique⟩

/-- The shortest path that is found is the chosen one. -/
theorem shortestPath?_eq_some (hg : g.Straight) {es : List StepId} :
    g.shortestPath? s = some es ↔ g.Chosen s es := by
  obtain ⟨hsurveyed,hs,-⟩ := (surveyed_unknown g).explore hg s
  exact hsurveyed.pathAlong? hs

/-- If a goal can be reached, a path is chosen. -/
theorem GoalIn.exists_chosen (h : g.GoalIn d s) (hg : g.Straight) : ∃ es, g.Chosen s es := by
  obtain ⟨hsurveyed,hs,-⟩ := (surveyed_unknown g).explore hg s
  have hm := hsurveyed.measured hs (hsurveyed.idle s)
  cases hknown : (g.explore g.unknown s).of s with
  | unvisited => exact absurd hknown hs
  | inProgress => exact absurd hknown (hsurveyed.idle s)
  | unreachable =>
    rw [hknown] at hm
    exact absurd h (hm d)
  | steps k =>
    obtain ⟨es,-,hc,-⟩ := hsurveyed.descend hknown
    exact ⟨es,hc⟩

/-- A path is found exactly if a goal can be reached. -/
theorem shortestPath?_isSome (hg : g.Straight) :
    (g.shortestPath? s).isSome = true ↔ ∃ d, g.GoalIn d s := by
  rw [Option.isSome_iff_exists]
  constructor
  · rintro ⟨es,hes⟩
    exact ⟨_,((shortestPath?_eq_some hg).mp hes).away.reaches⟩
  · rintro ⟨d,hd⟩
    exact (hd.exists_chosen hg).imp fun es => (shortestPath?_eq_some hg).mpr

/-- States that were explored before change nothing about the others. -/
theorem Surveyed.explores (hg : g.Straight) : ∀ (ts : List StateId) {known : Distances},
    g.Surveyed known → g.Surveyed (ts.foldl g.explore known) ∧
      known.Advances (ts.foldl g.explore known) ∧
        ∀ t ∈ ts, (ts.foldl g.explore known).of t ≠ .unvisited
  | [], known, h => ⟨h,.refl known,fun t ht => absurd ht List.not_mem_nil⟩
  | t :: ts, known, h => by
    obtain ⟨h₁,ht,hk⟩ := h.explore hg t
    obtain ⟨h₂,hk',hts⟩ := Surveyed.explores hg ts h₁
    refine ⟨h₂,hk.trans hk',fun u hu => ?_⟩
    rcases List.mem_cons.mp hu with rfl|hu
    · exact hk'.visited ht
    · exact hts u hu

/-- Distances may be shared by all searches for a path. -/
theorem pathAlong?_distances (hg : g.Straight) (s : StateId) :
    g.pathAlong? g.distances s = g.shortestPath? s := by
  obtain ⟨h,hk,hall⟩ := Surveyed.explores hg g.stateIds (surveyed_unknown g)
  have hs : g.distances.of s ≠ .unvisited := by
    by_cases hlt : s.index<g.states.size
    · exact hall s (List.mem_map.mpr ⟨s.index,List.mem_range.mpr hlt,rfl⟩)
    · refine hk.visited ?_
      rw [of_unknown,if_neg hlt]
      nofun
  refine Option.ext fun es => ?_
  exact (h.pathAlong? hs).trans (shortestPath?_eq_some hg).symm

end SearchGraph

end GraphPattern
