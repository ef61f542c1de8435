import GraphPattern.Proofs.Query.WellFormed
import GraphPattern.Validation

/-!
# What validation has checked

A walk comes upon everything that the containers of a query declare, so a query without violations
keeps the rules for each of its constraints.
-/

namespace GraphPattern.Query

variable {q : Query} {c : ContainerId} {C : Container}

/-- What a walk comes upon in a container, apart from its subqueries. -/
def eventsOf (d : ContainerId) (D : Container) : List WalkEvent :=
  .enter d :: vertexEvents D ++ edgeEvents D ++ declarationEvents D

/-- All that a walk shows of a container itself. -/
def ownEvents (c : ContainerId) (C : Container) : List WalkEvent := eventsOf c C ++ [.leave c]

/-- In either order a walk shows what belongs to a container and what lies in its subqueries. -/
theorem perm_walkBelow (hC : q.container? c = some C) (order : WalkOrder) (depth : Nat)
    (outer : List ContainerId) : (q.walkBelow order (depth+1) outer c).Perm
      (((ownEvents c C).map fun event => ⟨event,c :: outer⟩) ++
        C.subqueries.flatMap (q.walkBelow order depth (c :: outer))) := by
  have hbehind : ∀ A E I D : List Visit, (A ++ (E ++ I) ++ D).Perm (A ++ E ++ D ++ I) := by
    intro A E I D
    simp only [List.append_assoc]
    exact (List.perm_append_comm.append_left E).append_left A
  have hown : ((ownEvents c C).map fun event => (⟨event,c :: outer⟩ : Visit)) =
      ((.enter c :: vertexEvents C).map fun event => ⟨event,c :: outer⟩) ++
        ((edgeEvents C).map fun event => ⟨event,c :: outer⟩) ++
          ((declarationEvents C ++ [WalkEvent.leave c]).map fun event => ⟨event,c :: outer⟩) := by
    simp only [ownEvents,eventsOf,List.map_append,List.append_assoc]
  rw [hown]
  simp only [walkBelow,hC]
  cases order with
  | edgesFirst => exact hbehind _ _ _ _
  | subqueriesFirst =>
    exact ((List.perm_append_comm.append_left _).append_right _).trans (hbehind _ _ _ _)

theorem mem_walkBelow {order : WalkOrder} {depth : Nat} {outer : List ContainerId} {v : Visit}
    (hC : q.container? c = some C) :
    v ∈ q.walkBelow order (depth+1) outer c ↔
      (∃ e ∈ ownEvents c C, ⟨e,c :: outer⟩ = v) ∨
        ∃ s ∈ C.subqueries, v ∈ q.walkBelow order depth (c :: outer) s := by
  rw [(perm_walkBelow hC order depth outer).mem_iff,List.mem_append,List.mem_map,List.mem_flatMap]

/-- A walk comes upon the events of every container below the one where it begins. -/
theorem exists_visit (order : WalkOrder) {e : WalkEvent} {d : ContainerId} {D : Container}
    (hD : q.container? d = some D) (he : e ∈ eventsOf d D) :
    ∀ (depth : Nat) (outer : List ContainerId) (c : ContainerId), d ∈ q.containersBelow depth c →
      ∃ v ∈ q.walkBelow order depth outer c, v.event = e
  | 0, _, _, hd => absurd hd List.not_mem_nil
  | depth+1, outer, c, hd => by
    cases hC : q.container? c with
    | none =>
      simp only [containersBelow,hC] at hd
      exact absurd hd List.not_mem_nil
    | some C =>
      simp only [containersBelow,hC] at hd
      rcases List.mem_cons.mp hd with rfl|hd
      · rw [hC] at hD
        cases hD
        have hown : e ∈ ownEvents d D := List.mem_append_left _ he
        exact ⟨_,(mem_walkBelow hC).mpr (.inl ⟨e,hown,rfl⟩),rfl⟩
      · obtain ⟨s,hs,hds⟩ := List.mem_flatMap.mp hd
        obtain ⟨v,hv,hve⟩ := exists_visit order hD he depth (c :: outer) s hds
        exact ⟨v,(mem_walkBelow hC).mpr (.inr ⟨s,hs,hv⟩),hve⟩

/-- In a query without violations nothing that a walk comes upon shows one. -/
theorem visit_of_violations (h : q.WellFormed) (hv : q.violations = []) {e : WalkEvent}
    {d : ContainerId} {D : Container} (hD : q.container? d = some D) (he : e ∈ eventsOf d D) :
    q.visitViolations e = [] := by
  have hd : d ∈ q.containersBelow q.containers.next .root :=
    h.nested.mem_containerIds.mpr (by rw [hD]; rfl)
  obtain ⟨v,hm,hve⟩ := exists_visit .edgesFirst hD he _ [] _ hd
  rw [violations,List.append_eq_nil_iff,List.append_eq_nil_iff] at hv
  rw [← hve]
  exact List.flatMap_eq_nil_iff.mp hv.1.1 v hm

theorem mem_announced {α : Type} {heading : WalkEvent} {event : α → WalkEvent} {members : List α}
    {i : α} (hi : i ∈ members) : event i ∈ announced heading event members := by
  rw [announced,if_neg (by simp [List.ne_nil_of_mem hi])]
  exact List.mem_cons_of_mem _ (List.mem_map_of_mem hi)

/-- Every constraint of a query without violations has an operator that compares two operands. -/
theorem binary_of_violations (h : q.WellFormed) (hv : q.violations = []) {c : ContainerId}
    {C : Container} {k : Constraint} (hC : q.container? c = some C) (hk : k ∈ C.constraints) :
    ∃ operator, Comparison.ofKeyword? k.operator = some operator ∧ operator.isBinary = true := by
  have hnone := visit_of_violations h hv hC (e:=.constraint k) (List.mem_append_right _
    (List.mem_append_left _ (List.mem_append_left _ (mem_announced hk))))
  rw [visitViolations,constraintViolations] at hnone
  simp only [List.append_eq_nil_iff] at hnone
  have hop := hnone.1.1.1
  split at hop
  · rename_i hany
    exact Option.any_eq_true _ _ |>.mp hany
  · cases hop

end GraphPattern.Query
