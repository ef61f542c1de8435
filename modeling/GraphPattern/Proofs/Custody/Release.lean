import GraphPattern.Proofs.Custody.Run
import GraphPattern.Proofs.Execution.Answer

/-!
# Which tables are released

A replay releases every table that it makes and that does not come into the registry, and a run
releases all tables that it makes, in whatever way they end. There is one exception: a step that
keeps the tables of its result before it learns that there is an entry of its name leaves both
behind. Names with dots in them lead to plans in which this happens.
-/

namespace GraphPattern

open Step Workspace

namespace Workspace

variable {w w' : Workspace} {F : TableId → Prop} {i : TableId}

/-- The tables of the registry are there, each at one place, and no table waits for its release. -/
structure Tidy (w : Workspace) : Prop where
  /-- The numbers of all tables were given. -/
  counted : w.store.Counted
  /-- The entries stand in order. -/
  ordered : w.registry.keys.Pairwise (· < ·)
  /-- The tables of the registry are there. -/
  live : ∀ {i}, w.Owns i → w.store.Live i
  /-- The tables of an entry are two. -/
  pair : ∀ {n t}, w.registry.find? n = some t → t.objects ≠ t.links
  /-- Different entries share no table. -/
  apart : ∀ {m n t u}, w.registry.find? m = some t → w.registry.find? n = some u → m ≠ n →
    ∀ i ∈ t.ids, i ∉ u.ids
  /-- There are no scratch tables. -/
  scratch : w.scratch = []

/-- The table is there, and no entry of the registry holds it. -/
def Loose (w : Workspace) (i : TableId) : Prop := w.store.Live i ∧ ¬w.Owns i

theorem Tidy.custody (h : w.Tidy) : w.Custody w.Loose where
  counted := h.counted
  live i := by
    rw [h.scratch,or_iff_left List.not_mem_nil,Loose]
    by_cases ho : w.Owns i
    · exact iff_of_true (h.live ho) (.inr ho)
    · simp only [ho,not_false_eq_true,and_true,or_false]
  ordered := h.ordered
  pair := h.pair
  apart := h.apart
  owned ho := ⟨fun hl => hl.2 ho,by rw [h.scratch]; exact List.not_mem_nil⟩
  scratch hi := by
    rw [h.scratch] at hi
    cases hi

theorem Custody.tidy (h : w.Custody F) (hs : w.scratch = []) : w.Tidy :=
  ⟨h.counted,h.ordered,fun ho => (h.live _).mpr (.inr (.inl ho)),h.pair,h.apart,hs⟩

theorem Custody.loose (h : w.Custody F) (hs : w.scratch = []) : w.Loose i ↔ F i := by
  rw [Loose,h.live,hs,or_iff_left List.not_mem_nil]
  exact ⟨fun ⟨hi,ho⟩ => hi.resolve_right ho,fun hi => ⟨.inl hi,fun ho => (h.owned ho).1 hi⟩⟩

/-- Two tables that were not there before are there now, and no entry holds them. -/
def Strays (w w' : Workspace) : Prop :=
  ∃ o l, o ≠ l ∧ ¬w.store.Live o ∧ ¬w.store.Live l ∧ ∀ i, w'.Loose i ↔ w.Loose i ∨ i = o ∨ i = l

end Workspace

/-- A replay leaves the registry tidy, and no other table than those that were loose before, unless
its own tables are stranded. -/
theorem Rule.ends_replay {rule : Rule} (hr : rule ∈ builtIn) {w : Workspace} (hw : w.Tidy)
    (r : Replay) : Ends (rule.replay r) w (fun _ w' => w'.Tidy ∧ ∀ i, w'.Loose i ↔ w.Loose i)
      fun e w' => w'.Tidy ∧ ((¬Strands (stranding rule r) w e ∧ ∀ i, w'.Loose i ↔ w.Loose i) ∨
        (Strands (stranding rule r) w e ∧ Strays w w')) := by
  have hnew : ∀ {o : TableId}, w.store.created < o.index → ¬w.store.Live o := fun ho hl =>
    Nat.not_lt_of_le (hw.counted hl) ho
  have hnone : ∀ {F w'}, Restores r.result.joinedName F w w' → w'.scratch = [] := fun h =>
    h.scratch.trans hw.scratch
  refine (leaves_replay hr hw.custody r).imp (fun _ w' h => ?_) fun e w' h => ?_
  · exact ⟨h.custody.tidy (hnone h),fun i => h.custody.loose (hnone h)⟩
  · rcases h with ⟨hs,h⟩|⟨hs,o,l,hne,ho,hl,h⟩
    · exact ⟨h.custody.tidy (hnone h),.inl ⟨hs,fun i => h.custody.loose (hnone h)⟩⟩
    · exact ⟨h.custody.tidy (hnone h),.inr ⟨hs,o,l,hne,hnew ho,hnew hl,fun i =>
        h.custody.loose (hnone h)⟩⟩

namespace Execution

/-- No temporary table is left behind, in whatever way a replay or a run ends, unless a step has
kept the tables of its result for an entry that exists already; then there are exactly these two
more. In a run the entry comes from an earlier step with a result of the same name. -/
theorem tables_released {rule : Rule} (hrule : rule ∈ Rule.builtIn) (r : Replay) {w : Workspace}
    (hw : w.Tidy) (config : ExecutionConfig) {plan : Plan}
    (hsteps : ∀ s ∈ plan.steps, s.step.rule ∈ Rule.builtIn) (destination : String) {s : Store}
    (hs : s.Counted) :
    Ends (rule.replay r) w (fun _ w' => w'.Tidy ∧ ∀ i, w'.Loose i ↔ w.Loose i)
      (fun e w' => w'.Tidy ∧
        ((¬Strands (Rule.stranding rule r) w e ∧ ∀ i, w'.Loose i ↔ w.Loose i) ∨
          (Strands (Rule.stranding rule r) w e ∧ Strays w w'))) ∧
    Ends (run config plan destination) s (fun _ s' => ∀ i, s'.Live i ↔ s.Live i)
      (fun e s' => (∀ i, s'.Live i ↔ s.Live i) ∨
        ∃ n, Clashes [] plan.steps n ∧ e = .state (.tablesExist n) ∧ ∃ o l, o ≠ l ∧
          ¬s.Live o ∧ ¬s.Live l ∧ ∀ i, s'.Live i ↔ s.Live i ∨ i = o ∨ i = l) := by
  refine ⟨Rule.ends_replay hrule hw r,(ends_run config hsteps destination hs).imp
    (fun _ _ h => h.live) fun _ _ h => ?_⟩
  exact h.imp (·.live) fun ⟨n,hn,he,o,l,hne,ho,hl,h⟩ => ⟨n,hn,he,o,l,hne,ho,hl,h.live⟩

/-- A self-loop and two edges whose composites have the joined names of each other. -/
def entangled : Description :=
  ⟨"q","",⟨[⟨"D",none,none⟩,⟨"Q",none,none⟩,⟨"A.B",none,none⟩,⟨"P",none,none⟩,⟨"A",none,none⟩],
    [⟨"B.C","A","D",false,none,none⟩,⟨"C.D","A.B","A.B",false,none,none⟩,
      ⟨"A.B.C.D","P","Q",false,none,none⟩,⟨"Z1","Q","A",false,none,none⟩,
      ⟨"Z0","A","A.B",false,none,none⟩],[],[],[]⟩,[]⟩

/-- A workspace in which there is an entry for the composite of two vertices and an edge. -/
def occupied : Workspace where
  store := { Store.empty with
    tables := .ofList [(⟨1⟩,⟨Column.matched,[]⟩),(⟨2⟩,⟨Column.matched,[]⟩)]
    created := 2 }
  registry := .ofList [("A.B.C.D.P.Q",⟨⟨1⟩,⟨2⟩⟩)]
  scratch := []

theorem tidy_occupied : occupied.Tidy := by
  have hadd : ∀ {s : Store}, s.Counted → s.Added ⟨s.created+1⟩ { s with
      tables := s.tables.insert ⟨s.created+1⟩ ⟨Column.matched,[]⟩, created := s.created+1 } :=
    fun hs => (Store.adds_insertTable ⟨Column.matched,[]⟩ _ hs).of_eq rfl
  have h₁ := hadd counted_empty
  have h₂ := hadd (h₁.counted counted_empty)
  have hcustody := ((custody_fresh counted_empty).added h₁).added h₂
  have hfree : (Workspace.fresh .empty).registry.find? "A.B.C.D.P.Q" = none := rfl
  refine ((hcustody.congr fun i => ?_).put (F:=Store.empty.Live) (t:=⟨⟨1⟩,⟨2⟩⟩)
    (fun i _ => by rintro ⟨⟩) (by decide) hfree).tidy rfl
  rw [SubgraphTables.ids,List.mem_pair,or_assoc]
  rfl

/-- A replay finds an entry of the name of its result, and so does a step of a plan that was searched
for. Both leave two tables behind. -/
theorem tables_released_entangled : ∃ q plan, entangled.build = .ok q ∧ q.violations = [] ∧
    Plan.ofQuery Rule.builtIn .standard q = .ok plan ∧ plan.isSolved = true ∧
    (∃ e w, Rule.collapseEdge.replay ⟨q,⟨[⟨1⟩,⟨7⟩,⟨3⟩],[],none⟩,⟨"A.B.C.D.P.Q",[]⟩⟩ occupied =
      .error e w ∧ Strays occupied w) ∧
    ∃ e s, run .standard plan "out" .empty = .error e s ∧
      ∃ o l, o ≠ l ∧ ∀ i, s.Live i ↔ i = o ∨ i = l := by
  obtain ⟨q,plan,last,hq,hv,hplan,hsolved,-,hcheck⟩ := exists_solved (d:=entangled)
    (c:=fun q plan _ => failsWith (fun _ s => s.tables.contains ⟨59⟩)
        (run .standard plan "out") .empty &&
      failsWith (fun e _ => e == .state (.tablesExist "A.B.C.D.P.Q"))
        (Rule.collapseEdge.replay ⟨q,⟨[⟨1⟩,⟨7⟩,⟨3⟩],[],none⟩,⟨"A.B.C.D.P.Q",[]⟩⟩) occupied) (by
      rw [Description.build,Description.addAll_flat rfl]
      decide +kernel)
  obtain ⟨hrun,hreplay⟩ := Bool.and_eq_true_iff.mp hcheck
  obtain ⟨e,s,hrun,hlive⟩ := exists_of_failsWith hrun
  obtain ⟨e',w,hreplay,he⟩ := exists_of_failsWith hreplay
  obtain ⟨hstep,hends⟩ := tables_released
    (by simp [Rule.builtIn] : Rule.collapseEdge ∈ Rule.builtIn)
    ⟨q,⟨[⟨1⟩,⟨7⟩,⟨3⟩],[],none⟩,⟨"A.B.C.D.P.Q",[]⟩⟩ tidy_occupied .standard
    (fun _ hs => Plan.rule_of_mem_steps hplan hs) "out" counted_empty
  refine ⟨q,plan,hq,hv,hplan,hsolved,⟨e',w,hreplay,?_⟩,e,s,hrun,?_⟩
  · refine ((hstep.of_eq_error hreplay).2.resolve_left fun h => h.1 ?_).2
    exact ⟨_,rfl,(by decide : "A.B.C.D.P.Q" ∈ occupied.registry.keys),by simpa using he⟩
  · have hnone : ∀ i, ¬Store.empty.Live i := by rintro i ⟨⟩
    obtain ⟨-,-,-,o,l,hne,-,-,h⟩ := (hends.of_eq_error hrun).resolve_left fun h =>
      hnone _ ((h ⟨59⟩).mp hlive)
    exact ⟨o,l,hne,fun i => (h i).trans (or_iff_right (hnone i))⟩

end Execution

end GraphPattern
