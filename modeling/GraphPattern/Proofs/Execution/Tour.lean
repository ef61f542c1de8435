import GraphPattern.Proofs.Execution.Names
import GraphPattern.Proofs.Execution.Progress
import GraphPattern.Proofs.Execution.Recall

/-!
# What a run arrives at

The steps of a run that fetches nothing lead from the first query to others. From one step to the
next the query may become another one with the same composite vertices and the same constraints. If
such a run succeeds, every step has been replayed and no two composite vertices had the same joined
names at any time, since each of their entries is needed in the end. So the last entry presents what
fits all items of the first query.
-/

namespace GraphPattern

open Matches Rule Step Workspace

namespace Query

variable {q₀ p q q' : Query} {s : Store} {D : Set Constraint} {w w' : Workspace}
  {names needed : List String}

/-- The composite vertex stands for the same in the other query. -/
def Occurs (q : Query) (x : Item) : Prop :=
  ∃ j z, q.item? j = some z ∧ z.kind = .composite ∧ z.names = x.names ∧
    z.provenance.map Provenance.item = x.provenance.map Provenance.item

/-- The queries have the same composite vertices, and what the first one declares is declared by the
second one. -/
structure Agrees (p q : Query) : Prop where
  /-- A composite vertex of the first query is one of the second one. -/
  forth : ∀ {i x}, p.item? i = some x → x.kind = .composite → q.Occurs x
  /-- A composite vertex of the second query is one of the first one. -/
  back : ∀ {i x}, q.item? i = some x → x.kind = .composite → p.Occurs x
  /-- A constraint of the first query is one of the second one. -/
  declared : ∀ k ∈ p.allDeclared, ∃ l ∈ q.allDeclared, l.Alike k

theorem Agrees.refl (h : ∀ k ∈ q.allDeclared, k.Alike k) : q.Agrees q where
  forth hx hk := ⟨_,_,hx,hk,rfl,rfl⟩
  back hx hk := ⟨_,_,hx,hk,rfl,rfl⟩
  declared k hk := ⟨k,hk,h k hk⟩

theorem Accounts.congr (hD : q₀.Accounts p D) (h : p.Agrees q) : q₀.Accounts q D where
  declared := hD.declared
  covered k hk := by
    obtain ⟨v,x,hx,hkind,hn⟩ := hD.covered k hk
    obtain ⟨j,z,hz,hkz,hnames,-⟩ := h.forth hx hkind
    exact ⟨j,z,hz,hkz,fun n hnk => hnames ▸ hn n hnk⟩
  settled k hk := by
    rcases hD.settled k hk with ⟨l,hl,halike⟩|hd
    · obtain ⟨m,hm,halike'⟩ := h.declared l hl
      exact .inl ⟨m,hm,halike'.trans halike⟩
    · exact .inr hd

theorem Presented.congr (hP : q₀.Presented p s D w) (h : p.Agrees q) : q₀.Presented q s D w := by
  refine ⟨fun {v x X} hx hk hX => ?_⟩
  obtain ⟨j,z,hz,hkz,hnames,hitem⟩ := h.back hx hk
  have hX' : w.Entry z.joinedName X.1 X.2 := by
    rw [Item.joinedName,hnames]
    exact hX
  have hpresents := hP.entry hz hkz hX'
  rw [hitem,itemNames_of_some hz,hnames,← itemNames_of_some hx] at hpresents
  exact hpresents

/-- The composite vertices are told apart by their joined names, under which there are entries that
are needed. -/
structure Tracked (q : Query) (names needed : List String) : Prop where
  /-- Their joined names are different. -/
  apart : ∀ {i j x z}, q.item? i = some x → q.item? j = some z → x.kind = .composite →
    z.kind = .composite → x.joinedName = z.joinedName → i = j
  /-- These are names of entries that are needed. -/
  kept : ∀ {n}, q.Composite n → n ∈ names ∧ n ∈ needed

theorem Tracked.congr (h : q.Tracked names needed) (hq : p.WellFormed) (hpq : p.Agrees q) :
    p.Tracked names needed where
  apart {i j x z} hx hz hk hk' hn := by
    obtain ⟨i',x',hx',hkx,hnx,-⟩ := hpq.forth hx hk
    obtain ⟨j',z',hz',hkz,hnz,-⟩ := hpq.forth hz hk'
    obtain rfl := h.apart hx' hz' hkx hkz (by rw [Item.joinedName,Item.joinedName,hnx,hnz]; exact hn)
    rw [hx'] at hz'
    cases hz'
    obtain ⟨n,hni⟩ := hq.exists_name hx
    refine hq.eq_of_name hni ?_
    rw [itemNames_of_some hx,← hnx,hnz] at hni
    rwa [itemNames_of_some hz]
  kept {n} hn := by
    obtain ⟨i,x,hx,hk,rfl⟩ := hn
    obtain ⟨j,z,hz,hkz,hnz,-⟩ := hpq.forth hx hk
    exact h.kept ⟨j,z,hz,hkz,by rw [Item.joinedName,hnz]; rfl⟩

end Query

/-! ## The ledger backwards -/

namespace PlanStep

open Query

variable {st : PlanStep} {q' : Query} {out : ItemId} {y : Item} {names names' needed : List String}
  {n : String}

/-- What a replayed step takes was there, once, and the rest is what was there besides. -/
theorem of_replayed? (h : st.before.WellFormed)
    (hr : Reduction st.before st.step.rule st.step.application q' out)
    (hy : q'.item? out = some y) (hres : st.step.result.joinedName = y.joinedName)
    (hs : st.replayed? names = some names') (hmem : y.joinedName ∈ names') :
    (st.taken.Nodup ∧ ∀ n ∈ st.taken, n ∈ names) ∧
      ∀ n ∈ names', n ≠ y.joinedName → n ∈ names ∧ n ∉ st.taken := by
  have hsame : st.taken = [y.joinedName] → y.joinedName ∈ names →
      (∀ n ∈ names', n ≠ y.joinedName → n ∈ names) → (st.taken.Nodup ∧ ∀ n ∈ st.taken, n ∈ names) ∧
        ∀ n ∈ names', n ≠ y.joinedName → n ∈ names ∧ n ∉ st.taken := by
    intro ht hy hback
    rw [ht]
    exact ⟨⟨List.nodup_singleton _,fun n hn => List.mem_singleton.mp hn ▸ hy⟩,fun n hn hne =>
      ⟨hback n hn hne,fun hm => hne (List.mem_singleton.mp hm)⟩⟩
  have hrest : ∀ n ∈ insertOrdered y.joinedName (names.filter (· ∉ st.taken)), n ≠ y.joinedName →
      n ∈ names ∧ n ∉ st.taken := fun n hn hne => by
    obtain ⟨hn,ht⟩ := List.mem_filter.mp ((mem_insertOrdered.mp hn).resolve_left hne)
    exact ⟨hn,of_decide_eq_true ht⟩
  cases hw : st.step.rule.writing with
  | nothing =>
    rw [replayed?,hw] at hs
    cases hs
    exact hsame (taken_of_inPlace h hr hy (.inr hw)) hmem fun n hn _ => hn
  | inPlace =>
    rw [replayed?_inPlace _ hw,hres] at hs
    obtain ⟨hy',hs⟩ := Option.ite_none_right_eq_some.mp hs
    refine hsame (taken_of_inPlace h hr hy (.inl hw)) hy' fun n hn hne => ?_
    rw [← Option.some_inj.mp hs] at hn
    exact (mem_insertOrdered.mp hn).resolve_left hne
  | replacing =>
    rw [replayed?_replacing _ hw,hres] at hs
    obtain ⟨hoffered,hs⟩ := Option.ite_none_right_eq_some.mp hs
    exact ⟨hoffered,Option.some_inj.mp hs ▸ hrest⟩
  | anew =>
    rw [replayed?_anew _ hw,hres] at hs
    obtain ⟨⟨hoffered,-⟩,hs⟩ := Option.ite_none_right_eq_some.mp hs
    exact ⟨hoffered,Option.some_inj.mp hs ▸ hrest⟩

/-- If composite vertices are tracked after a replayed step, then they were so before. -/
theorem tracked_back (h : st.before.WellFormed)
    (hr : Reduction st.before st.step.rule st.step.application q' out)
    (hy : q'.item? out = some y) (hres : st.step.result.joinedName = y.joinedName)
    (hs : st.replayed? names = some names') (ht : q'.Tracked names' needed) :
    st.before.Tracked names (needed.filter (· ≠ y.joinedName) ++ st.step.application.names) := by
  have hc := hr.changes h
  have hout : q'.Composite y.joinedName := by
    obtain ⟨z,hz,hk,-⟩ := hc.out
    rw [hy] at hz
    cases hz
    exact ⟨out,y,hy,hk,rfl⟩
  obtain ⟨⟨hnodup,hoffered⟩,hrest⟩ := of_replayed? h hr hy hres hs (ht.kept hout).1
  -- A composite vertex that takes no part stays, and its joined names are not those of the result.
  have hstays : ∀ {i x}, st.before.item? i = some x → x.kind = .composite →
      i ∉ st.step.application.items → (∃ z, q'.item? i = some z ∧ z.kind = .composite ∧
        z.joinedName = x.joinedName) ∧ x.joinedName ≠ y.joinedName := fun {i x} hx hk hi => by
    obtain ⟨hne,z,hz,hf⟩ := hc.forth hx hi
    have hname : z.joinedName = x.joinedName := by rw [Item.joinedName,Item.joinedName,hf.names]
    have hky := hc.kind_out hy
    refine ⟨⟨z,hz,hf.kind.trans hk,hname⟩,fun he => hne ?_⟩
    exact ht.apart hz hy (hf.kind.trans hk) hky (hname.trans he)
  have hfree : ∀ {i x}, st.before.item? i = some x → x.kind = .composite →
      i ∉ st.step.application.items → x.joinedName ∈ names ∧ x.joinedName ∉ st.taken :=
    fun hx hk hi => by
      obtain ⟨⟨z,hz,hkz,hname⟩,hne⟩ := hstays hx hk hi
      exact hrest _ (hname ▸ (ht.kept ⟨_,z,hz,hkz,rfl⟩).1) hne
  have htaken : ∀ {i x}, st.before.item? i = some x → x.kind = .composite →
      i ∈ st.step.application.items → x.joinedName ∈ st.taken := fun hx hk hi =>
    mem_taken.mpr ⟨_,hi,_,hx,hk,rfl⟩
  constructor
  · intro i j x z hx hz hk hk' hn
    by_cases hi : i ∈ st.step.application.items <;> by_cases hj : j ∈ st.step.application.items
    · by_contra hij
      have hsymm : Std.Symm (Function.onFun List.Disjoint fun i =>
          (st.before.item? i).elim [] held) := ⟨fun _ _ hd => List.Disjoint.symm hd⟩
      have hdisjoint := (List.nodup_flatMap.mp hnodup).2.forall hi hj hij
      have hheld : ∀ {i x}, st.before.item? i = some x → x.kind = .composite →
          x.joinedName ∈ (st.before.item? i).elim [] held := fun hx hk =>
        mem_held.mpr ⟨_,hx,hk,rfl⟩
      exact hdisjoint (hheld hx hk) (hn ▸ hheld hz hk')
    · exact absurd (hn ▸ htaken hx hk hi) (hfree hz hk' hj).2
    · exact absurd (hn ▸ htaken hz hk' hj) (hfree hx hk hi).2
    · obtain ⟨⟨x',hx',hkx,hnx⟩,-⟩ := hstays hx hk hi
      obtain ⟨⟨z',hz',hkz,hnz⟩,-⟩ := hstays hz hk' hj
      exact ht.apart hx' hz' hkx hkz (by rw [hnx,hnz,hn])
  · rintro n ⟨i,x,hx,hk,rfl⟩
    by_cases hi : i ∈ st.step.application.items
    · exact ⟨hoffered _ (htaken hx hk hi),List.mem_append_right _ (hr.mem_names.mpr ⟨i,hi,x,hx,rfl⟩)⟩
    · obtain ⟨⟨z,hz,hkz,hname⟩,hne⟩ := hstays hx hk hi
      refine ⟨(hfree hx hk hi).1,List.mem_append_left _ (List.mem_filter.mpr ⟨?_,by simpa using hne⟩)⟩
      exact hname ▸ (ht.kept ⟨_,z,hz,hkz,rfl⟩).2

end PlanStep

/-! ## Runs -/

/-- Steps that lead from one query to another one, when reductions have led from the first query to
it. Between two steps the query keeps its composite vertices and its constraints. -/
inductive Tour (q₀ : Query) : Query → List PlanStep → Query → Prop
  /-- No step is taken. -/
  | nil {q : Query} {f : ItemId → ItemId} (lineal : q₀.Lineal q f) : Tour q₀ q [] q
  /-- A step is taken first. -/
  | cons {q q' t u : Query} {f : ItemId → ItemId} {x : SearchStep} {out : ItemId} {y : Item}
    {steps : List PlanStep} (lineal : q₀.Lineal q f) (able : q.Replayable)
    (reduced : Reduction q x.rule x.application q' out) (live : q'.item? out = some y)
    (named : x.result = ⟨y.joinedName,y.names⟩) (kept : q'.Agrees t) (rest : Tour q₀ t steps u) :
    Tour q₀ q (⟨q,x⟩ :: steps) u

namespace Execution

open Query

variable {q₀ q u : Query} {steps : List PlanStep} {config : ExecutionConfig} {finalName label : String}
  {s : Store} {st : PlanStep} {w w' : Workspace} {total : Nat}

/-- A step that is replayed does to the registry what the ledger says. -/
theorem replays_execute (hs : st.Carried) (hw : w.Orderly)
    (h : runStep config label st .execute w = .ok () w') : st.Replays w w' :=
  (outcome_execute (P:=fun w' => st.Replays w w')
    ((PlanStep.outcome_replay hs hw).imp (fun _ _ hr => hr) fun _ => trivial)
    fun {_ n} hr => ⟨hr.names,hr.orderly.commits n,⟨hr.data.objects,hr.data.links,
      hr.data.containers,hr.data.failsCommits⟩⟩).of_eq h

section Step

variable {p : Query} {x : SearchStep} {y : Item} {out : ItemId} {position : Nat} (hq : q.WellFormed)
  (able : q.Replayable) (reduced : Reduction q x.rule x.application p out)
  (live : p.item? out = some y) (named : x.result = ⟨y.joinedName,y.names⟩) (hw : w.Orderly)
  (hrun : runSteps config total position (scheduled .empty finalName (⟨q,x⟩ :: steps)) w =
    .ok () w')

include hq able reduced live named hw hrun

/-- The first step of a run is replayed, if the composite vertices are tracked after it. -/
theorem executes_of_tracked
    (ht : ∀ {v : Workspace}, v.Orderly →
      runSteps config total (position+1) (scheduled .empty finalName steps) v = .ok () w' →
        p.Tracked v.registry.keys (needed .empty finalName steps)) :
    scheduled .empty finalName (⟨q,x⟩ :: steps) =
      (⟨q,x⟩,.execute) :: scheduled .empty finalName steps ∧
    needed .empty finalName (⟨q,x⟩ :: steps) =
      (needed .empty finalName steps).filter (· ≠ x.result.joinedName) ++ x.application.names ∧
    ∃ v, runStep config s!"{position}/{total} {x.text}" ⟨q,x⟩ .execute w = .ok () v ∧
      runSteps config total (position+1) (scheduled .empty finalName steps) v = .ok () w' ∧
      PlanStep.Replays ⟨q,x⟩ w v ∧ p.Tracked v.registry.keys (needed .empty finalName steps) := by
  obtain ⟨mode,names,hm,hscheduled,hneeded⟩ := exists_scheduled .empty finalName ⟨q,x⟩ steps
  rw [hscheduled] at hrun ⊢
  rw [hneeded]
  obtain ⟨⟨⟩,v,hstep,hrest⟩ := bind_eq_ok.mp hrun
  cases hm with
  | skip unneeded =>
    cases hstep
    have hk := (reduced.changes hq).kind_out live
    exact absurd ((ht hw hrest).kept ⟨out,y,live,hk,by rw [named]⟩).2 unneeded
  | fetch wanted found =>
    rw [commonSource?_empty] at found
    cases found
  | execute wanted missing =>
    have hreplays := replays_execute ⟨able,p,out,y,reduced,live,named⟩ hw hstep
    exact ⟨rfl,rfl,v,hstep,hrest,hreplays,ht hreplays.orderly hrest⟩

end Step

/-- If a run succeeds that tells the composite vertices apart in the end, it did so all the time, and
every step has been replayed. -/
theorem tracked_of_tour (h : Tour q₀ q steps u) : ∀ {w w' : Workspace} {position : Nat}, w.Orderly →
    runSteps config total position (scheduled .empty finalName steps) w = .ok () w' →
    u.Tracked w'.registry.keys [finalName] →
    q.Tracked w.registry.keys (needed .empty finalName steps) := by
  induction h with
  | nil lineal =>
    intro w w' position _ hrun hu
    cases hrun
    exact hu
  | @cons q q' t u f x out y steps lineal able reduced live named kept rest ih =>
    intro w w' position hw hrun hu
    have hqw := lineal.wellFormed
    obtain ⟨-,hneeded,w₁,-,-,hreplays,htracked⟩ := executes_of_tracked hqw able reduced live named
      hw hrun fun hv hrest => (ih hv hrest hu).congr (reduced.applied hqw).2 kept
    rw [hneeded,named]
    exact @PlanStep.tracked_back ⟨q,x⟩ _ _ _ _ _ _ hqw reduced live (by rw [named]) hreplays.names
      htracked

/-- What a run holds of a query: the registry is in order, the constraints are accounted for, and
the entries present what fits. -/
structure Holds (q₀ q : Query) (s : Store) (w : Workspace) : Prop where
  /-- The registry is in order. -/
  orderly : w.Orderly
  /-- The objects are the same. -/
  objects : w.store.objects = s.objects
  /-- So are the links. -/
  links : w.store.links = s.links
  /-- The entries present what fits with the constraints that have been processed. -/
  presented : ∃ D, q₀.Accounts q D ∧ q₀.Presented q s D w

/-- If a run succeeds that tells the composite vertices apart in the end, its entries present what
fits. -/
theorem holds_of_tour (h₀ : q₀.Definite) (hs : s.Keyed) (h : Tour q₀ q steps u) :
    ∀ {w w' : Workspace} {position : Nat}, Holds q₀ q s w →
      runSteps config total position (scheduled .empty finalName steps) w = .ok () w' →
      u.Tracked w'.registry.keys [finalName] → Holds q₀ u s w' := by
  induction h with
  | nil lineal =>
    intro w w' position hw hrun _
    cases hrun
    exact hw
  | @cons q q' t u f x out y steps lineal able reduced live named kept rest ih =>
    intro w w' position ⟨hw,ho,hl,D,hD,hP⟩ hrun hu
    have hqw := lineal.wellFormed
    obtain ⟨-,-,w₁,hstep,hrest,hreplays,htracked⟩ := executes_of_tracked hqw able reduced live named
      hw hrun fun hv hrest => (tracked_of_tour rest hv hrest hu).congr (reduced.applied hqw).2 kept
    have hcomposite := (reduced.changes hqw).kind_out live
    have hP' := (outcome_execute (P:=fun w' => q₀.Presented q' s (x.application.enforced D) w')
      (hP.step h₀ lineal hD reduced hs live (by rw [named]) (fun hz hk hn =>
        htracked.apart hz live hk hcomposite hn) able.limited hw.sound ho hl)
      fun hP => ⟨hP.entry⟩).of_eq hstep
    exact ih ⟨hreplays.orderly,hreplays.data.objects.trans ho,hreplays.data.links.trans hl,_,
      (hD.step h₀ lineal reduced).congr kept,hP'.congr kept⟩ hrest hu

end Execution

end GraphPattern
