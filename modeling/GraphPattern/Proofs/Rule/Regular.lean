import GraphPattern.Proofs.Rule.Parts
import GraphPattern.Proofs.Validation

/-!
# What validation says about edges and subqueries

In a query without violations subqueries lie in the root and have vertices, and every edge joins two
vertices and lies where one of them does.
-/

namespace GraphPattern.Query

/-- Edges and subqueries are where they have to be. -/
structure Regular (q : Query) : Prop where
  /-- The query is well formed. -/
  wellFormed : q.WellFormed
  /-- Subqueries lie in the root. -/
  flat : q.Flat
  /-- Both ends of every edge are known. -/
  closed : q.Closed
  /-- An edge lies where the vertex at one of its ends does. -/
  beside : ∀ {e}, q.IsEdge e → ∃ s v, q.Ends e s v ∧ q.itemOwner v = q.itemOwner e
  /-- There is a vertex in every container. -/
  inhabited : ∀ {c C}, q.container? c = some C → ∃ v, q.IsVertex v ∧ q.itemOwner v = some c

variable {q : Query}

/-- Both ends of an edge without violations are known, and it lies where one of them does. -/
theorem ends_of_edgeViolations {e : ItemId} {y : Item} {ends : EdgeEnds} (hy : q.item? e = some y)
    (he : y.ends? = some ends) (h : q.edgeViolations e y = []) :
    (∀ s, ∃ v, q.Ends e s v) ∧ ∃ s v, q.Ends e s v ∧ q.itemOwner v = q.itemOwner e := by
  rw [edgeViolations,he] at h
  simp only at h
  split at h
  · rename_i x z hx hz
    obtain ⟨v,hv,hx⟩ := Option.bind_eq_some_iff.mp hx
    obtain ⟨u,hu,hz⟩ := Option.bind_eq_some_iff.mp hz
    have hev : q.Ends e true v := ⟨y,ends,hy,he,hv⟩
    have heu : q.Ends e false u := ⟨y,ends,hy,he,hu⟩
    refine ⟨fun s => ?_,?_⟩
    · cases s
      · exact ⟨u,heu⟩
      · exact ⟨v,hev⟩
    · rw [joinViolations] at h
      simp only [List.append_eq_nil_iff] at h
      have hstray := h.1.2
      by_cases hvc : y.container = x.container
      · exact ⟨true,v,hev,by rw [itemOwner_of_some hx,itemOwner_of_some hy,hvc]⟩
      · by_cases huc : y.container = z.container
        · exact ⟨false,u,heu,by rw [itemOwner_of_some hz,itemOwner_of_some hy,huc]⟩
        · simp [hvc,huc] at hstray
  · cases h

theorem ends_of_violations (h : q.WellFormed) (hv : q.violations = []) {e : ItemId}
    (he : q.IsEdge e) :
    (∀ s, ∃ v, q.Ends e s v) ∧ ∃ s v, q.Ends e s v ∧ q.itemOwner v = q.itemOwner e := by
  obtain ⟨y,hy,hyv⟩ := he
  obtain ⟨ends,hends⟩ := Item.not_isVertex_iff.mp hyv
  obtain ⟨c,C,-,hC,hm⟩ := h.owned.owner hy
  rw [hyv] at hm
  have hnone := visit_of_violations h hv hC (e:=.edge e) (List.mem_append_left _
    (List.mem_append_right _ (mem_announced hm)))
  rw [visitViolations,hy,Option.elim_some,List.append_eq_nil_iff] at hnone
  exact ends_of_edgeViolations hy hends hnone.2

/-- A query without violations is regular. -/
theorem regular_of_violations (h : q.WellFormed) (hv : q.violations = []) : q.Regular where
  wellFormed := h
  flat {p c} hpc := by
    obtain ⟨P,hP,hm⟩ := hpc
    obtain ⟨C,hC,hparent⟩ := h.nested.child hP hm
    have hnone := visit_of_violations h hv hC (e:=.enter c) List.mem_cons_self
    rw [visitViolations,hC] at hnone
    simp only [Option.elim_some,containerViolations,List.append_eq_nil_iff] at hnone
    have hnested := hnone.1.2
    rw [hparent,Option.bind_some,hP,Option.any_some] at hnested
    refine h.nested.eq_root hP ?_
    cases P with
    | mk kind => cases kind with
      | query => rfl
      | subquery => simp [Container.isSubquery] at hnested
  closed he := (ends_of_violations h hv he).1
  beside he := (ends_of_violations h hv he).2
  inhabited {c C} hC := by
    have hnone := visit_of_violations h hv hC (e:=.enter c) List.mem_cons_self
    rw [visitViolations,hC] at hnone
    simp only [Option.elim_some,containerViolations,List.append_eq_nil_iff] at hnone
    have hvertices := hnone.1.1
    split at hvertices
    · cases hvertices
    · rename_i hne
      obtain ⟨v,hv⟩ := List.exists_mem_of_ne_nil _ (by simpa using hne)
      obtain ⟨x,hx,hxv,hxc⟩ := h.owned.member (b:=true) hC hv
      exact ⟨v,⟨x,hx,hxv⟩,by rw [itemOwner_of_some hx,hxc]⟩

end GraphPattern.Query
